import Mathlib.Algebra.Ring.Nat

/-!
# Well-formed UTF-8

A byte sequence is well formed when it splits into the encodings of Unicode scalar values: no
overlong form, no surrogate, nothing above `U+10FFFF` and no truncated tail. `Utf8.valid` decides
it by reading one encoded scalar value at a time.

`WellFormed` is that splitting itself. A decoder is compared with it along the sequence:
`wellFormed_cons` splits off the first scalar value, and `scalar_ascii` and `scalar_lead` say in
numbers what its bytes may be.
-/

namespace Zryna.Utf8

open List

/-- A continuation byte between two bounds. -/
def continuation (low high byte : ℕ) : Bool := low ≤ byte && byte ≤ high

/-- The number of bytes of the encoded scalar value at the front, if there is one. -/
def scalarLength : List ℕ → Option ℕ
  | [] => none
  | first :: rest =>
    if first ≤ 0x7f then some 1
    else
      match rest with
      | [] => none
      | second :: rest =>
        if 0xc2 ≤ first ∧ first ≤ 0xdf then
          if continuation 0x80 0xbf second then some 2 else none
        else
          match rest with
          | [] => none
          | third :: rest =>
            if 0xe0 ≤ first ∧ first ≤ 0xef then
              let low := if first = 0xe0 then 0xa0 else 0x80
              let high := if first = 0xed then 0x9f else 0xbf
              if continuation low high second && continuation 0x80 0xbf third then some 3
              else none
            else
              match rest with
              | [] => none
              | fourth :: _ =>
                let low := if first = 0xf0 then 0x90 else 0x80
                let high := if first = 0xf4 then 0x8f else 0xbf
                if 0xf0 ≤ first ∧ first ≤ 0xf4 ∧ continuation low high second = true
                    ∧ continuation 0x80 0xbf third = true
                    ∧ continuation 0x80 0xbf fourth = true then some 4
                else none

def validRounds : ℕ → List ℕ → Bool
  | 0, bytes => bytes.isEmpty
  | fuel + 1, bytes =>
    match bytes with
    | [] => true
    | _ =>
      match scalarLength bytes with
      | none => false
      | some length => validRounds fuel (bytes.drop length)

/-- The bytes are well-formed UTF-8. -/
def valid (bytes : List ℕ) : Bool := validRounds bytes.length bytes

example : valid [0x68, 0xc3, 0xa9, 0xe2, 0x82, 0xac, 0xf0, 0x9f, 0x98, 0x80] = true := by decide

example : valid [0xed, 0xa0, 0x80] = false := by decide

/-! ### Encodings of scalar values -/

/-- The bytes of one scalar value. -/
def Scalar (bytes : List UInt8) : Prop := ∃ c : Char, String.utf8EncodeChar c = bytes

/-- A concatenation of encoded scalar values. -/
def WellFormed (bytes : List UInt8) : Prop :=
  ∃ text : List Char, text.flatMap String.utf8EncodeChar = bytes

theorem wellFormed_nil : WellFormed [] := ⟨[], rfl⟩

variable {first : UInt8} {n : ℕ}

/-- A nonempty sequence starts with a scalar value. -/
theorem wellFormed_cons {rest : List UInt8} :
    WellFormed (first :: rest) ↔
      ∃ tail rest', rest = tail ++ rest' ∧ Scalar (first :: tail) ∧ WellFormed rest' := by
  constructor
  · rintro ⟨text, htext⟩
    cases text with
    | nil => simp at htext
    | cons c text =>
      rw [flatMap_cons] at htext
      cases hc : String.utf8EncodeChar c with
      | nil => exact absurd hc String.utf8EncodeChar_ne_nil
      | cons byte tail =>
        rw [hc, cons_append, List.cons.injEq] at htext
        obtain ⟨rfl, rfl⟩ := htext
        exact ⟨tail, _, rfl, ⟨c, hc⟩, text, rfl⟩
  · rintro ⟨tail, rest', rfl, ⟨c, hc⟩, text, rfl⟩
    exact ⟨c :: text, by rw [flatMap_cons, hc, cons_append]⟩

/-- The lead byte of a scalar value with `n` continuation bytes, without its payload. -/
def leadOffset : ℕ → ℕ
  | 1 => 0xc0
  | 2 => 0xe0
  | _ => 0xf0

/-- The least code that needs `n` continuation bytes. -/
def leastCode : ℕ → ℕ
  | 1 => 0x80
  | 2 => 0x800
  | _ => 0x10000

/-- The code of a payload with the continuation bytes behind it. -/
def accumulate (code : ℕ) (tail : List UInt8) : ℕ :=
  tail.foldl (fun code byte => code * 64 + byte.toNat % 64) code

/-- A byte of the form `10xxxxxx`. -/
def IsContinuation (byte : UInt8) : Prop := 0x80 ≤ byte.toNat ∧ byte.toNat < 0xc0

/-- A scalar value: no surrogate, and not above the last one. -/
def IsScalarCode (code : ℕ) : Prop := code < 0xd800 ∨ 0xdfff < code ∧ code < 0x110000

theorem exists_char {code : ℕ} (h : IsScalarCode code) : ∃ c : Char, c.val.toNat = code := by
  have hvalid : code.isValidChar := h
  refine ⟨Char.ofNat code, ?_⟩
  rw [Char.ofNat, dif_pos hvalid]
  rfl

theorem isScalarCode_val (c : Char) : IsScalarCode c.val.toNat := c.valid

variable {tail : List UInt8}

theorem scalar_ascii (h : first.toNat < 0x80) : Scalar (first :: tail) ↔ tail = [] := by
  constructor
  · rintro ⟨c, hc⟩
    unfold String.utf8EncodeChar at hc
    dsimp only at hc
    split at hc
    · exact (List.cons.inj hc).2.symm
    -- a longer encoding starts above ASCII
    exfalso
    split at hc
    · have := congrArg UInt8.toNat (List.cons.inj hc).1
      rw [UInt8.toNat_ofNat'] at this
      omega
    split at hc
    · have := congrArg UInt8.toNat (List.cons.inj hc).1
      rw [UInt8.toNat_ofNat'] at this
      omega
    · have := congrArg UInt8.toNat (List.cons.inj hc).1
      rw [UInt8.toNat_ofNat'] at this
      omega
  · rintro rfl
    obtain ⟨c, hc⟩ := exists_char (show IsScalarCode first.toNat from .inl (by omega))
    refine ⟨c, ?_⟩
    unfold String.utf8EncodeChar
    dsimp only
    rw [hc, if_pos (by omega), UInt8.ofNat_toNat]

/-- A small number is its byte. -/
theorem toNat_ofNat (h : n < 256) : (UInt8.ofNat n).toNat = n := UInt8.toNat_ofNat_of_lt' h

/-- A continuation byte and its six bits. -/
theorem toNat_low (v : ℕ) : (UInt8.ofNat (v % 64 + 0x80)).toNat = v % 64 + 0x80 :=
  toNat_ofNat (by omega)

theorem eq_ofNat {byte : UInt8} (h : byte.toNat = n) : byte = UInt8.ofNat n := by
  rw [← h, UInt8.ofNat_toNat]

/-- What the bytes of a scalar value above ASCII are: a lead byte and one to three continuation
bytes, whose code is a scalar value and needs that many bytes. -/
structure Multibyte (first : UInt8) (tail : List UInt8) (payload : ℕ) : Prop where
  length_pos : 0 < tail.length
  length_le : tail.length ≤ 3
  continuation : ∀ byte ∈ tail, IsContinuation byte
  first_eq : first.toNat = leadOffset tail.length + payload
  payload_lt : payload < 2 ^ (6 - tail.length)
  least : leastCode tail.length ≤ accumulate payload tail
  isScalar : IsScalarCode (accumulate payload tail)

/-- The encoding of a scalar value above ASCII has that form. -/
theorem multibyte_of_encode {c : Char}
    (h : 0x80 ≤ first.toNat) (hc : String.utf8EncodeChar c = first :: tail) :
    ∃ payload, Multibyte first tail payload := by
  have hscalar := isScalarCode_val c
  have hlt : c.val.toNat < 0x110000 := by
    unfold IsScalarCode at hscalar
    omega
  unfold String.utf8EncodeChar at hc
  dsimp only at hc
  generalize c.val.toNat = v at hc hscalar hlt
  split at hc
  · -- one byte is ASCII
    have := congrArg UInt8.toNat (List.cons.inj hc).1
    rw [toNat_ofNat (by omega)] at this
    omega
  split at hc
  · obtain ⟨rfl, rfl⟩ := List.cons.inj hc
    have hcode : v / 64 * 64 + (v % 64 + 0x80) % 64 = v := by omega
    have hpayload : v / 64 % 32 = v / 64 := by omega
    refine ⟨v / 64, by simp, by simp, ?_, ?_, ?_, ?_, ?_⟩
    · simp only [mem_singleton, forall_eq, IsContinuation, toNat_low]
      omega
    · rw [toNat_ofNat (by omega), hpayload, Nat.add_comm]
      rfl
    · show v / 64 < 32
      omega
    · show 0x80 ≤ v / 64 * 64 + _ % 64
      simp only [toNat_low]
      omega
    · show IsScalarCode (v / 64 * 64 + _ % 64)
      simp only [toNat_low, hcode]
      exact hscalar
  split at hc
  · obtain ⟨rfl, rfl⟩ := List.cons.inj hc
    have hcode : (v / 4096 * 64 + (v / 64 % 64 + 0x80) % 64) * 64 + (v % 64 + 0x80) % 64 = v := by
      omega
    have hpayload : v / 4096 % 16 = v / 4096 := by omega
    refine ⟨v / 4096, by simp, by simp, ?_, ?_, ?_, ?_, ?_⟩
    · simp only [mem_cons, not_mem_nil, or_false, forall_eq_or_imp, forall_eq,
        IsContinuation, toNat_low]
      omega
    · rw [toNat_ofNat (by omega), hpayload, Nat.add_comm]
      rfl
    · show v / 4096 < 16
      omega
    · show 0x800 ≤ (v / 4096 * 64 + _ % 64) * 64 + _ % 64
      simp only [toNat_low]
      omega
    · show IsScalarCode ((v / 4096 * 64 + _ % 64) * 64 + _ % 64)
      simp only [toNat_low, hcode]
      exact hscalar
  · obtain ⟨rfl, rfl⟩ := List.cons.inj hc
    have hcode : ((v / 262144 * 64 + (v / 4096 % 64 + 0x80) % 64) * 64
        + (v / 64 % 64 + 0x80) % 64) * 64 + (v % 64 + 0x80) % 64 = v := by
      omega
    have hpayload : v / 262144 % 8 = v / 262144 := by omega
    refine ⟨v / 262144, by simp, by simp, ?_, ?_, ?_, ?_, ?_⟩
    · simp only [mem_cons, not_mem_nil, or_false, forall_eq_or_imp, forall_eq,
        IsContinuation, toNat_low]
      omega
    · rw [toNat_ofNat (by omega), hpayload, Nat.add_comm]
      rfl
    · show v / 262144 < 8
      omega
    · show 0x10000 ≤ ((v / 262144 * 64 + _ % 64) * 64 + _ % 64) * 64 + _ % 64
      simp only [toNat_low]
      omega
    · show IsScalarCode (((v / 262144 * 64 + _ % 64) * 64 + _ % 64) * 64 + _ % 64)
      simp only [toNat_low, hcode]
      exact hscalar

/-- Bytes of that form are the encoding of their code. -/
theorem Multibyte.scalar {payload : ℕ}
    (h : Multibyte first tail payload) : Scalar (first :: tail) := by
  obtain ⟨hpos, hle, hcontinuation, hfirst, hpayload, hleast, hscalar⟩ := h
  obtain ⟨c, hc⟩ := exists_char hscalar
  refine ⟨c, ?_⟩
  unfold String.utf8EncodeChar
  dsimp only
  rw [hc]
  match tail with
  | [] => exact absurd hpos (Nat.lt_irrefl 0)
  | [a] =>
    have ha := hcontinuation a (by simp)
    generalize hcode : accumulate payload [a] = code at hleast hscalar ⊢
    change payload * 64 + a.toNat % 64 = code at hcode
    change first.toNat = 0xc0 + payload at hfirst
    change payload < 32 at hpayload
    change 0x80 ≤ code at hleast
    unfold IsContinuation at ha
    rw [if_neg (by omega), if_pos (by omega),
      eq_ofNat (show first.toNat = code / 64 % 32 + 0xc0 by omega),
      eq_ofNat (show a.toNat = code % 64 + 0x80 by omega)]
  | [a, b] =>
    have ha := hcontinuation a (by simp)
    have hb := hcontinuation b (by simp)
    generalize hcode : accumulate payload [a, b] = code at hleast hscalar ⊢
    change (payload * 64 + a.toNat % 64) * 64 + b.toNat % 64 = code at hcode
    change first.toNat = 0xe0 + payload at hfirst
    change payload < 16 at hpayload
    change 0x800 ≤ code at hleast
    unfold IsContinuation at ha hb
    rw [if_neg (by omega), if_neg (by omega), if_pos (by omega),
      eq_ofNat (show first.toNat = code / 4096 % 16 + 0xe0 by omega),
      eq_ofNat (show a.toNat = code / 64 % 64 + 0x80 by omega),
      eq_ofNat (show b.toNat = code % 64 + 0x80 by omega)]
  | [a, b, d] =>
    have ha := hcontinuation a (by simp)
    have hb := hcontinuation b (by simp)
    have hd := hcontinuation d (by simp)
    generalize hcode : accumulate payload [a, b, d] = code at hleast hscalar ⊢
    change ((payload * 64 + a.toNat % 64) * 64 + b.toNat % 64) * 64 + d.toNat % 64 = code at hcode
    change first.toNat = 0xf0 + payload at hfirst
    change payload < 8 at hpayload
    change 0x10000 ≤ code at hleast
    unfold IsContinuation at ha hb hd
    rw [if_neg (by omega), if_neg (by omega), if_neg (by omega),
      eq_ofNat (show first.toNat = code / 262144 % 8 + 0xf0 by omega),
      eq_ofNat (show a.toNat = code / 4096 % 64 + 0x80 by omega),
      eq_ofNat (show b.toNat = code / 64 % 64 + 0x80 by omega),
      eq_ofNat (show d.toNat = code % 64 + 0x80 by omega)]
  | _ :: _ :: _ :: _ :: _ =>
    simp only [length_cons] at hle
    omega

theorem scalar_lead (h : 0x80 ≤ first.toNat) :
    Scalar (first :: tail) ↔ ∃ payload, Multibyte first tail payload := by
  constructor
  · rintro ⟨c, hc⟩
    exact multibyte_of_encode h hc
  · rintro ⟨payload, hform⟩
    exact hform.scalar

end Zryna.Utf8
