import Zryna.Foundation.Utf8

/-!
# UTF-8 in the native runtime

`valid_utf8` of `runtime/native/ownership_runtime_v1.c`. The function takes the class of a lead byte,
shifts the continuation bytes into a code, and checks the code afterwards: against the least code of
the class, against the surrogates and against the last scalar value.

Memory is a partial function: a byte outside the buffer is not there, and a read of it makes the
result `none`. `validUtf8_spec` therefore says two things at once, which sequences are accepted and
that no byte behind the given length is read.
-/

namespace Zryna.OwnershipRuntime.Native

open List Option

/-! ### The decoder -/

/-- The class of a lead byte above ASCII: the bits it contributes, the least code of the class and
the number of continuation bytes. -/
def leadClass (first : ℕ) : Option (ℕ × ℕ × ℕ) :=
  if first ≥ 0xc2 ∧ first ≤ 0xdf then some (first &&& 0x1f, 0x80, 1)
  else if first ≥ 0xe0 ∧ first ≤ 0xef then some (first &&& 0x0f, 0x800, 2)
  else if first ≥ 0xf0 ∧ first ≤ 0xf4 then some (first &&& 0x07, 0x10000, 3)
  else none

/-- The check of a finished code. -/
def codeRefused (code minimum : ℕ) : Bool :=
  code < minimum || code > 0x10ffff || (code ≥ 0xd800 && code ≤ 0xdfff)

section Decoder

variable (bytes : ℕ → Option UInt8)

/-- The inner loop: the index and the code after it, or nothing where a byte is no continuation. A
code has at most 21 bits, so no shift leaves the `uint32_t` of the source. -/
def continuationLoop : ℕ → ℕ → ℕ → Option (Option (ℕ × ℕ))
  | 0, index, code => some (some (index, code))
  | remaining + 1, index, code => do
    let next := (← bytes index).toNat
    if next &&& 0xc0 ≠ 0x80 then some none
    else continuationLoop remaining (index + 1) (code <<< 6 ||| (next &&& 0x3f))

/-- The outer loop. Every round reads a byte. -/
def validUtf8Loop (length : ℕ) : ℕ → ℕ → Option Bool
  | 0, _ => none
  | rounds + 1, index =>
    if length ≤ index then some true
    else do
      let first := (← bytes index).toNat
      let index := index + 1
      if first < 0x80 then validUtf8Loop length rounds index
      else
        match leadClass first with
        | none => some false
        | some (code, minimum, remaining) =>
          if length - index < remaining then some false
          else
            match ← continuationLoop bytes remaining index code with
            | none => some false
            | some (index, code) =>
              if codeRefused code minimum then some false
              else validUtf8Loop length rounds index

def validUtf8 (length : ℕ) : Option Bool := validUtf8Loop bytes length (length + 1) 0

end Decoder

/-! ### Bits -/

theorem and_lead (first : ℕ) :
    first &&& 0x1f = first % 32 ∧ first &&& 0x0f = first % 16 ∧ first &&& 0x07 = first % 8 :=
  ⟨Nat.and_two_pow_sub_one_eq_mod first 5, Nat.and_two_pow_sub_one_eq_mod first 4,
    Nat.and_two_pow_sub_one_eq_mod first 3⟩

/-- The mask test of the inner loop. -/
theorem and_continuation (byte : UInt8) :
    byte.toNat &&& 0xc0 = 0x80 ↔ Utf8.IsContinuation byte := by
  have hall : ∀ n : Fin 256, n.val &&& 0xc0 = 0x80 ↔ 0x80 ≤ n.val ∧ n.val < 0xc0 := by
    decide +kernel
  exact hall ⟨byte.toNat, byte.toNat_lt⟩

theorem shift_or (code byte : ℕ) : code <<< 6 ||| (byte &&& 0x3f) = code * 64 + byte % 64 := by
  have hmask : byte &&& 0x3f = byte % 64 := Nat.and_two_pow_sub_one_eq_mod byte 6
  rw [hmask, ← Nat.shiftLeft_add_eq_or_of_lt (Nat.mod_lt byte (by decide)) code, Nat.shiftLeft_eq]

/-! ### One scalar value -/

variable {code minimum remaining : ℕ} {first : UInt8} {rest : List UInt8}

theorem leadClass_eq_some {first : ℕ} (h : leadClass first = some (code, minimum, remaining)) :
    (0 < remaining ∧ remaining ≤ 3) ∧ first = Utf8.leadOffset remaining + code
      ∧ minimum = Utf8.leastCode remaining ∧ code < 2 ^ (6 - remaining) := by
  obtain ⟨h5, h4, h3⟩ := and_lead first
  unfold leadClass at h
  rw [h5, h4, h3] at h
  split at h
  · simp only [Option.some.injEq, Prod.mk.injEq] at h
    obtain ⟨rfl, rfl, rfl⟩ := h
    refine ⟨by omega, ?_, rfl, Nat.mod_lt _ (by decide)⟩
    show first = 0xc0 + first % 32
    omega
  split at h
  · simp only [Option.some.injEq, Prod.mk.injEq] at h
    obtain ⟨rfl, rfl, rfl⟩ := h
    refine ⟨by omega, ?_, rfl, Nat.mod_lt _ (by decide)⟩
    show first = 0xe0 + first % 16
    omega
  split at h
  · simp only [Option.some.injEq, Prod.mk.injEq] at h
    obtain ⟨rfl, rfl, rfl⟩ := h
    refine ⟨by omega, ?_, rfl, Nat.mod_lt _ (by decide)⟩
    show first = 0xf0 + first % 8
    omega
  · cases h

/-- The class of the lead byte of a scalar value: the narrower ranges of the source leave out only
bytes whose codes are too small or too large. -/
theorem leadClass_of_multibyte {tail : List UInt8} {payload : ℕ}
    (h : Utf8.Multibyte first tail payload) :
    leadClass first.toNat = some (payload, Utf8.leastCode tail.length, tail.length) := by
  obtain ⟨hpos, hle, -, hfirst, hpayload, hleast, hscalar⟩ := h
  obtain ⟨h5, h4, h3⟩ := and_lead first.toNat
  unfold leadClass
  rw [h5, h4, h3]
  match tail with
  | [] => exact absurd hpos (Nat.lt_irrefl 0)
  | [a] =>
    change first.toNat = 0xc0 + payload at hfirst
    change payload < 32 at hpayload
    change 0x80 ≤ payload * 64 + a.toNat % 64 at hleast
    rw [if_pos (by omega), show first.toNat % 32 = payload by omega]
    rfl
  | [a, b] =>
    change first.toNat = 0xe0 + payload at hfirst
    change payload < 16 at hpayload
    rw [if_neg (by omega), if_pos (by omega), show first.toNat % 16 = payload by omega]
    rfl
  | [a, b, d] =>
    change first.toNat = 0xf0 + payload at hfirst
    change payload < 8 at hpayload
    change Utf8.IsScalarCode (((payload * 64 + a.toNat % 64) * 64 + b.toNat % 64) * 64 + d.toNat % 64)
      at hscalar
    unfold Utf8.IsScalarCode at hscalar
    rw [if_neg (by omega), if_neg (by omega), if_pos (by omega),
      show first.toNat % 8 = payload by omega]
    rfl
  | _ :: _ :: _ :: _ :: _ =>
    simp only [length_cons] at hle
    omega

theorem codeRefused_eq_false :
    codeRefused code minimum = false ↔ minimum ≤ code ∧ Utf8.IsScalarCode code := by
  simp only [codeRefused, Bool.or_eq_false_iff, Bool.and_eq_false_iff, decide_eq_false_iff_not,
    Utf8.IsScalarCode]
  omega

/-- A sequence that starts with a lead byte: what the decoder checks before it goes on. -/
theorem wellFormed_lead (hfirst : 0x80 ≤ first.toNat)
    (hclass : leadClass first.toNat = some (code, minimum, remaining)) :
    Utf8.WellFormed (first :: rest) ↔ remaining ≤ rest.length
      ∧ (∀ byte ∈ rest.take remaining, Utf8.IsContinuation byte)
      ∧ codeRefused (Utf8.accumulate code (rest.take remaining)) minimum = false
      ∧ Utf8.WellFormed (rest.drop remaining) := by
  obtain ⟨⟨hpos, hle⟩, hoffset, rfl, hpayload⟩ := leadClass_eq_some hclass
  rw [Utf8.wellFormed_cons, codeRefused_eq_false]
  constructor
  · rintro ⟨tail, rest', rfl, hscalar, hrest'⟩
    obtain ⟨payload, hform⟩ := (Utf8.scalar_lead hfirst).mp hscalar
    -- the class fixes the length of the tail and the payload
    have hsame := hclass.symm.trans (leadClass_of_multibyte hform)
    simp only [Option.some.injEq, Prod.mk.injEq] at hsame
    obtain ⟨rfl, -, rfl⟩ := hsame
    rw [take_left, drop_left, length_append]
    exact ⟨Nat.le_add_right _ _, hform.continuation, ⟨hform.least, hform.isScalar⟩, hrest'⟩
  · rintro ⟨henough, hcontinuation, ⟨hleast, hscalar⟩, hrest⟩
    have hlength : (rest.take remaining).length = remaining := length_take_of_le henough
    refine ⟨_, _, (take_append_drop remaining rest).symm, ?_, hrest⟩
    refine @Utf8.Multibyte.scalar _ _ code ⟨?_, ?_, hcontinuation, ?_, ?_, ?_, hscalar⟩
    · rw [hlength]
      exact hpos
    · rw [hlength]
      exact hle
    · rw [hlength]
      exact hoffset
    · rw [hlength]
      exact hpayload
    · rw [hlength]
      exact hleast

theorem leadClass_none (hfirst : 0x80 ≤ first.toNat)
    (hclass : leadClass first.toNat = none) : ¬Utf8.WellFormed (first :: rest) := by
  rw [Utf8.wellFormed_cons]
  rintro ⟨tail, rest', -, hscalar, -⟩
  obtain ⟨payload, hform⟩ := (Utf8.scalar_lead hfirst).mp hscalar
  rw [leadClass_of_multibyte hform] at hclass
  cases hclass

/-! ### The loops -/

section Loops

variable {bytes : List UInt8} {read : ℕ → Option UInt8}

theorem getElem?_of_drop {index : ℕ} {first : UInt8} {rest : List UInt8}
    (h : bytes.drop index = first :: rest) :
    bytes[index]? = some first ∧ bytes.drop (index + 1) = rest
      ∧ bytes.length - (index + 1) = rest.length := by
  refine ⟨?_, ?_, ?_⟩
  · have hhead : (bytes.drop index)[0]? = some first := by rw [h]; rfl
    simpa using hhead
  · rw [← tail_drop, h, tail_cons]
  · rw [← length_drop, ← tail_drop, h, tail_cons]

section

variable (hbytes : ∀ i < bytes.length, read i = bytes[i]?)

include hbytes

/-- The inner loop reads the bytes that are left and no more. -/
theorem continuationLoop_eq (tail : List UInt8) :
    ∀ {index code : ℕ} {rest : List UInt8}, bytes.drop index = tail ++ rest →
      ((∀ byte ∈ tail, Utf8.IsContinuation byte) →
        continuationLoop read tail.length index code
          = some (some (index + tail.length, Utf8.accumulate code tail)))
      ∧ ((¬∀ byte ∈ tail, Utf8.IsContinuation byte) →
        continuationLoop read tail.length index code = some none) := by
  induction tail with
  | nil =>
    intro index code rest _
    exact ⟨fun _ => rfl, fun h => absurd (by simp) h⟩
  | cons byte tail ih =>
    intro index code rest hdrop
    obtain ⟨hread, hnext, -⟩ := getElem?_of_drop hdrop
    have hinside := (List.getElem?_eq_some_iff.mp hread).1
    rw [length_cons, continuationLoop, hbytes index hinside, hread, bind_eq_bind, bind_some,
      forall_mem_cons]
    dsimp only
    by_cases hbyte : Utf8.IsContinuation byte
    · rw [if_neg (not_not.mpr ((and_continuation byte).mpr hbyte)), shift_or]
      obtain ⟨hgood, hbad⟩ := @ih (index + 1) (code * 64 + byte.toNat % 64) rest hnext
      refine ⟨fun h => ?_, fun h => hbad fun h' => h ⟨hbyte, h'⟩⟩
      rw [hgood h.2, Nat.add_assoc, Nat.add_comm 1]
      rfl
    · rw [if_pos fun h => hbyte ((and_continuation byte).mp h)]
      exact ⟨fun h => absurd h.1 hbyte, fun _ => rfl⟩

/-- The outer loop decides the sequence that is left. The induction is on the rounds, of which there
are more than bytes left. -/
theorem validUtf8Loop_spec (rounds : ℕ) :
    ∀ {index : ℕ}, bytes.length - index < rounds →
      ∃ result, validUtf8Loop read bytes.length rounds index = some result
        ∧ (result = true ↔ Utf8.WellFormed (bytes.drop index)) := by
  induction rounds with
  | zero => exact fun h => absurd h (Nat.not_lt_zero _)
  | succ rounds ih =>
    intro index hrounds
    rw [validUtf8Loop]
    by_cases hend : bytes.length ≤ index
    · rw [if_pos hend, drop_eq_nil_of_le hend]
      exact ⟨true, rfl, iff_of_true rfl Utf8.wellFormed_nil⟩
    rw [if_neg hend]
    obtain ⟨first, rest, hdrop⟩ : ∃ first rest, bytes.drop index = first :: rest :=
      exists_cons_of_ne_nil (by simpa using Nat.not_le.mp hend)
    obtain ⟨hread, hnext, hleft⟩ := getElem?_of_drop hdrop
    rw [hdrop, hbytes index (by omega), hread, bind_eq_bind, bind_some]
    dsimp only
    have hlength : bytes.length = index + 1 + rest.length := by omega
    by_cases hascii : first.toNat < 0x80
    · rw [if_pos hascii]
      obtain ⟨result, hloop, hresult⟩ := @ih (index + 1) (by omega)
      refine ⟨result, hloop, hresult.trans ?_⟩
      rw [hnext, Utf8.wellFormed_cons]
      constructor
      · intro hrest
        exact ⟨[], rest, rfl, (Utf8.scalar_ascii hascii).mpr rfl, hrest⟩
      · rintro ⟨tail, rest', rfl, hscalar, hrest'⟩
        obtain rfl := (Utf8.scalar_ascii hascii).mp hscalar
        exact hrest'
    rw [if_neg hascii]
    have hfirst : 0x80 ≤ first.toNat := Nat.not_lt.mp hascii
    cases hclass : leadClass first.toNat with
    | none => exact ⟨false, rfl, iff_of_false (by decide) (leadClass_none hfirst hclass)⟩
    | some entry =>
      obtain ⟨code, minimum, remaining⟩ := entry
      rw [wellFormed_lead hfirst hclass]
      dsimp only
      by_cases hshort : bytes.length - (index + 1) < remaining
      · rw [if_pos hshort]
        exact ⟨false, rfl, iff_of_false (by decide) fun h => by omega⟩
      rw [if_neg hshort]
      have henough : remaining ≤ rest.length := by omega
      have htake : (rest.take remaining).length = remaining := length_take_of_le henough
      obtain ⟨hgood, hbad⟩ := @continuationLoop_eq _ _ hbytes (rest.take remaining) _ code _
        (hnext.trans (take_append_drop remaining rest).symm)
      rw [htake] at hgood hbad
      by_cases hcontinuation : ∀ byte ∈ rest.take remaining, Utf8.IsContinuation byte
      · rw [hgood hcontinuation, bind_eq_bind, bind_some]
        dsimp only
        cases hcode : codeRefused (Utf8.accumulate code (rest.take remaining)) minimum with
        | true => exact ⟨false, rfl, iff_of_false (by decide) fun h => by simp at h⟩
        | false =>
          rw [if_neg (by decide)]
          obtain ⟨result, hloop, hresult⟩ := @ih (index + 1 + remaining) (by omega)
          refine ⟨result, hloop, hresult.trans ?_⟩
          rw [← drop_drop, hnext]
          exact ⟨fun h => ⟨henough, hcontinuation, rfl, h⟩, fun h => h.2.2.2⟩
      · rw [hbad hcontinuation, bind_eq_bind, bind_some]
        exact ⟨false, rfl, iff_of_false (by decide) fun h => hcontinuation h.2.1⟩

theorem validUtf8_read :
    ∃ result, validUtf8 read bytes.length = some result
      ∧ (result = true ↔ Utf8.WellFormed bytes) :=
  @validUtf8Loop_spec _ _ hbytes (bytes.length + 1) 0 (by omega)

end

end Loops

/-- The decoder accepts exactly the well-formed sequences, and it reads no byte outside of them. -/
theorem validUtf8_spec (bytes : List UInt8) :
    ∃ result, validUtf8 (bytes[·]?) bytes.length = some result
      ∧ (result = true ↔ Utf8.WellFormed bytes) :=
  validUtf8_read fun _ _ => rfl

example : validUtf8 ([0xe2, 0x82, 0xac][·]?) 3 = some true := by decide

/-- Without its last byte, the sequence is refused before it is read to the end. -/
example : validUtf8 ([0xe2, 0x82][·]?) 2 = some false := by decide

end Zryna.OwnershipRuntime.Native
