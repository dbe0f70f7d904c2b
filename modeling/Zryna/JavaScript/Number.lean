import Mathlib.Data.Int.Log
import Mathlib.Data.Rat.Floor

/-!
# Numbers of JavaScript

The Number type is the set of binary64 values. A finite value is carried as the rational it
denotes, and negative zero, which denotes no rational of its own, is a separate constructor; so
are the infinities and NaN. An arithmetic operation takes the exact result and rounds it to the
nearest value, ties to even (`ofRat`).

Bit operations work on the 32-bit vector that `toInt32` reads off a number.

The lemmas of the module say that integers below `2 ^ 53` in magnitude are computed exactly, and
that the bit operations on integers are those of 32-bit vectors.
-/

namespace Zryna.JavaScript

/-- Number values. `finite 0` is positive zero. -/
inductive Number where
  | nan
  | infinity (negative : Bool)
  | negativeZero
  | finite (value : ℚ)
deriving DecidableEq

/-! ### Rounding -/

/-- The nearest integer, ties to even. -/
def roundHalfEven (q : ℚ) : ℤ :=
  let low := ⌊q⌋
  let rest := q - low
  if rest < 1 / 2 then low
  else if 1 / 2 < rest then low + 1
  else if low % 2 = 0 then low
  else low + 1

/-- The exponent of the last of the 53 significant bits, bounded below by that of the subnormal
values. -/
def ulpExponent (q : ℚ) : ℤ := max (Int.log 2 |q| - 52) (-1074)

namespace Number

/-- The number nearest to `q`. A result that is zero is negative zero where `negative` holds. -/
def ofRat (negative : Bool) (q : ℚ) : Number :=
  let value : ℚ := roundHalfEven (q / 2 ^ ulpExponent q) * 2 ^ ulpExponent q
  if 2 ^ 1024 ≤ |value| then .infinity (decide (value < 0))
  else if value = 0 ∧ negative = true then .negativeZero
  else .finite value

/-- An integer, where it is a number. -/
def ofInt (n : ℤ) : Number := .finite n

/-! ### Operations -/

/-- The sign bit. -/
def isNegative : Number → Bool
  | .nan => false
  | .infinity negative => negative
  | .negativeZero => true
  | .finite value => decide (value < 0)

/-- The rational a finite number denotes. -/
def toRat : Number → ℚ
  | .finite value => value
  | _ => 0

def neg : Number → Number
  | .nan => .nan
  | .infinity negative => .infinity !negative
  | .negativeZero => .finite 0
  | .finite value => if value = 0 then .negativeZero else .finite (-value)

def add : Number → Number → Number
  | .nan, _ | _, .nan => .nan
  | .infinity x, .infinity y => if x = y then .infinity x else .nan
  | .infinity x, _ => .infinity x
  | _, .infinity y => .infinity y
  | .negativeZero, .negativeZero => .negativeZero
  | x, y => ofRat false (x.toRat + y.toRat)

def sub (x y : Number) : Number := x.add y.neg

def mul : Number → Number → Number
  | .nan, _ | _, .nan => .nan
  | .infinity x, .infinity y => .infinity (x != y)
  | .infinity x, y => if y.toRat = 0 then .nan else .infinity (x != y.isNegative)
  | x, .infinity y => if x.toRat = 0 then .nan else .infinity (x.isNegative != y)
  | x, y => ofRat (x.isNegative != y.isNegative) (x.toRat * y.toRat)

/-- The equality of `===`: the zeros are equal and NaN is not equal to itself. -/
def strictEq : Number → Number → Bool
  | .nan, _ | _, .nan => false
  | .infinity x, .infinity y => x == y
  | .infinity _, _ | _, .infinity _ => false
  | x, y => decide (x.toRat = y.toRat)

/-- The order of `<`, undefined on NaN. -/
def lt : Number → Number → Option Bool
  | .nan, _ | _, .nan => none
  | .infinity x, .infinity y => some (x && !y)
  | .infinity x, _ => some x
  | _, .infinity y => some !y
  | x, y => some (decide (x.toRat < y.toRat))

/-- Truncates and takes the residue modulo `2 ^ 32`. -/
def toInt32 : Number → BitVec 32
  | .finite value => BitVec.ofInt 32 (value.num.tdiv value.den)
  | _ => 0

/-- The signed reading of a vector. -/
def ofInt32 (x : BitVec 32) : Number := ofInt x.toInt

/-- The unsigned reading of a vector. -/
def ofUint32 (x : BitVec 32) : Number := ofInt x.toNat

/-- How far a shift goes. -/
def shiftCount (x : Number) : ℕ := x.toInt32.toNat % 32

variable (x y : Number)

def bitAnd : Number := ofInt32 (x.toInt32 &&& y.toInt32)

def bitOr : Number := ofInt32 (x.toInt32 ||| y.toInt32)

def shiftLeft : Number := ofInt32 (x.toInt32 <<< y.shiftCount)

def unsignedShiftRight : Number := ofUint32 (x.toInt32 >>> y.shiftCount)

end Number

/-! ### Exact integers -/

@[simp] theorem roundHalfEven_intCast (n : ℤ) : roundHalfEven n = n := by
  simp [roundHalfEven]

/-- Integers of at most 53 bits are a multiple of their unit in the last place. -/
theorem ulpExponent_intCast_nonpos {n : ℤ} (h : |n| < 2 ^ 53) : ulpExponent n ≤ 0 := by
  refine max_le ?_ (by norm_num)
  rcases eq_or_ne n 0 with rfl | hn
  · simp
  · have hlt : |(n : ℚ)| < (2 : ℕ) ^ (53 : ℤ) := by
      exact_mod_cast h
    have := (Int.lt_zpow_iff_log_lt (by norm_num) (by simpa using hn)).mp hlt
    omega

namespace Number

theorem ofRat_intCast {n : ℤ} (h : |n| < 2 ^ 53) : ofRat false n = ofInt n := by
  obtain ⟨k, hk⟩ : ∃ k : ℕ, ulpExponent (n : ℚ) = -k :=
    ⟨(-ulpExponent (n : ℚ)).toNat, by have := ulpExponent_intCast_nonpos h; omega⟩
  have hscale : (n : ℚ) / 2 ^ (-k : ℤ) = ((n * 2 ^ k : ℤ) : ℚ) := by
    rw [zpow_neg, zpow_natCast, div_inv_eq_mul]
    push_cast
    rfl
  have hvalue : ((roundHalfEven ((n : ℚ) / 2 ^ (-k : ℤ)) : ℤ) : ℚ) * 2 ^ (-k : ℤ) = n := by
    rw [hscale, roundHalfEven_intCast, ← hscale]
    exact div_mul_cancel₀ _ (zpow_ne_zero _ two_ne_zero)
  have hsmall : ¬ (2 : ℚ) ^ 1024 ≤ |(n : ℚ)| := by
    have hlt : |(n : ℚ)| < 2 ^ 53 := by exact_mod_cast h
    exact not_le.mpr (hlt.trans_le (pow_le_pow_right₀ (by norm_num) (by norm_num)))
  unfold ofRat
  rw [hk]
  simp only [hvalue]
  rw [if_neg hsmall, if_neg (fun h => Bool.false_ne_true h.2), ofInt]

theorem ofRat_natCast {n : ℕ} (h : n < 2 ^ 53) : ofRat false n = ofInt n := by
  have habs : |(n : ℤ)| < 2 ^ 53 := by
    rw [Nat.abs_cast]
    exact_mod_cast h
  rw [← ofRat_intCast habs, Int.cast_natCast]

/-- Sums of integers are exact. -/
theorem add_ofInt {m n : ℤ} (h : |m + n| < 2 ^ 53) : (ofInt m).add (ofInt n) = ofInt (m + n) := by
  rw [← ofRat_intCast h, Int.cast_add]
  rfl

theorem neg_ofInt {n : ℤ} (hn : n ≠ 0) : (ofInt n).neg = ofInt (-n) := by
  simp [neg, ofInt, hn]

/-- Differences of integers are exact, and are never negative zero. -/
theorem sub_ofInt {m n : ℤ} (h : |m - n| < 2 ^ 53) : (ofInt m).sub (ofInt n) = ofInt (m - n) := by
  rcases eq_or_ne n 0 with rfl | hn
  · have hneg : (ofInt 0).neg = .negativeZero := by simp [neg, ofInt]
    have hadd : (ofInt m).add .negativeZero = ofRat false (m + 0 : ℚ) := rfl
    rw [sub_zero] at h
    rw [sub, hneg, hadd, sub_zero, add_zero, ofRat_intCast h]
  · rw [sub, neg_ofInt hn, add_ofInt (by rwa [← sub_eq_add_neg]), sub_eq_add_neg]

/-- Products of nonnegative integers are exact. -/
theorem mul_ofInt {m n : ℤ} (hm : 0 ≤ m) (hn : 0 ≤ n) (h : |m * n| < 2 ^ 53) :
    (ofInt m).mul (ofInt n) = ofInt (m * n) := by
  have hsign : ∀ {k : ℤ}, 0 ≤ k → (ofInt k).isNegative = false := by
    intro k hk
    simp [isNegative, ofInt, hk]
  have hexact : (ofInt m).mul (ofInt n)
      = ofRat ((ofInt m).isNegative != (ofInt n).isNegative) (m * n : ℚ) := rfl
  rw [hexact, hsign hm, hsign hn, ← Int.cast_mul]
  exact ofRat_intCast h

@[simp] theorem toInt32_ofInt (n : ℤ) : (ofInt n).toInt32 = BitVec.ofInt 32 n := by
  simp [toInt32, ofInt]

@[simp] theorem toInt32_ofInt32 (x : BitVec 32) : (ofInt32 x).toInt32 = x := by
  rw [ofInt32, toInt32_ofInt, BitVec.ofInt_toInt]

@[simp] theorem strictEq_ofInt (m n : ℤ) : (ofInt m).strictEq (ofInt n) = decide (m = n) := by
  simp [strictEq, ofInt, toRat]

@[simp] theorem lt_ofInt (m n : ℤ) : (ofInt m).lt (ofInt n) = some (decide (m < n)) := by
  simp [lt, ofInt, toRat]

end Number

end Zryna.JavaScript
