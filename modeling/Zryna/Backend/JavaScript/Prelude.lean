import Zryna.JavaScript.Core

/-!
# Multiplication in the prelude

`$zryna$imul` multiplies two 32-bit integers by their 16-bit halves, since the product of two such
integers need not be exact in binary64. `imul` is its declaration, and `execBody_imul` its
correctness: it returns the wrapping product, and every sum and product on the way is an integer
below `2 ^ 53` in magnitude.
-/

namespace Zryna.Backend.JavaScript

open Zryna.JavaScript

/-- `($zryna$leftHigh * $zryna$rightLow + $zryna$leftLow * $zryna$rightHigh)` -/
def middleExpr : Expr :=
  .paren (.binary .add
    (.binary .mul (.ident "$zryna$leftHigh") (.ident "$zryna$rightLow"))
    (.binary .mul (.ident "$zryna$leftLow") (.ident "$zryna$rightHigh")))

/-- The low half of the middle products, in the high half of the result. -/
def shiftedExpr : Expr :=
  .paren (.binary .shiftLeft (.paren (.binary .bitAnd middleExpr (.number 65535))) (.number 16))

/-- The expression `$zryna$imul` returns. -/
def productExpr : Expr :=
  .binary .bitOr
    (.paren (.binary .add
      (.binary .mul (.ident "$zryna$leftLow") (.ident "$zryna$rightLow")) shiftedExpr))
    (.number 0)

def imul : Func where
  name := "$zryna$imul"
  parameters := ["$zryna$left", "$zryna$right"]
  body := [
    .constant "$zryna$leftLow" (.binary .bitAnd (.ident "$zryna$left") (.number 65535)),
    .constant "$zryna$leftHigh" (.binary .unsignedShiftRight (.ident "$zryna$left") (.number 16)),
    .constant "$zryna$rightLow" (.binary .bitAnd (.ident "$zryna$right") (.number 65535)),
    .constant "$zryna$rightHigh" (.binary .unsignedShiftRight (.ident "$zryna$right") (.number 16)),
    .ret productExpr]

def imulText : String :=
  "function $zryna$imul($zryna$left, $zryna$right) \x7b\n"
  ++ "  const $zryna$leftLow = $zryna$left & 65535;\n"
  ++ "  const $zryna$leftHigh = $zryna$left >>> 16;\n"
  ++ "  const $zryna$rightLow = $zryna$right & 65535;\n"
  ++ "  const $zryna$rightHigh = $zryna$right >>> 16;\n"
  ++ "  return ($zryna$leftLow * $zryna$rightLow + ((($zryna$leftHigh * $zryna$rightLow"
  ++ " + $zryna$leftLow * $zryna$rightHigh) & 65535) << 16)) | 0;\n"
  ++ "\x7d\n"

set_option maxRecDepth 8000 in
theorem imulText_eq_render : imulText = imul.render := rfl

/-! ### Halves -/

section Halves

variable (l r : BitVec 32)

theorem toInt_low : (l &&& 65535#32).toInt = (l.toNat % 65536 : ℕ) := by
  have hmask : (l &&& 65535#32).toNat = l.toNat % 65536 := by
    rw [BitVec.toNat_and]
    exact Nat.and_two_pow_sub_one_eq_mod l.toNat 16
  have hlt : l.toNat % 65536 < 65536 := Nat.mod_lt _ (by norm_num)
  rw [BitVec.toInt_eq_toNat_of_lt (by omega), hmask]

theorem toNat_high : (l >>> 16).toNat = l.toNat / 65536 := by
  rw [BitVec.toNat_ushiftRight, Nat.shiftRight_eq_div_pow]

/-- The middle products, of which only the low half contributes to the result. -/
def middle : ℕ :=
  l.toNat / 65536 * (r.toNat % 65536) + l.toNat % 65536 * (r.toNat / 65536)

/-- The contribution of the middle products. -/
def shifted : BitVec 32 := (BitVec.ofInt 32 (middle l r) &&& 65535#32) <<< 16

theorem halves_lt : l.toNat % 65536 < 65536 ∧ l.toNat / 65536 < 65536 := by
  have := l.isLt
  omega

theorem product_lt {a b : ℕ} (ha : a < 65536) (hb : b < 65536) : a * b < 2 ^ 32 := by
  calc a * b ≤ 65535 * 65535 := Nat.mul_le_mul (by omega) (by omega)
    _ < 2 ^ 32 := by norm_num

theorem middle_lt : middle l r < 2 ^ 33 := by
  have hlr := product_lt (halves_lt l).2 (halves_lt r).1
  have hrl := product_lt (halves_lt l).1 (halves_lt r).2
  unfold middle
  omega

/-- The low product plus the shifted middle is the wrapping product. -/
theorem ofInt_low_add_shifted :
    BitVec.ofInt 32 (((l.toNat % 65536) * (r.toNat % 65536) : ℕ) + (shifted l r).toInt) = l * r := by
  have hshift : (shifted l r).toNat = middle l r % 65536 * 65536 := by
    have hmask : (BitVec.ofInt 32 (middle l r) &&& 65535#32).toNat = middle l r % 65536 := by
      rw [BitVec.toNat_and, BitVec.ofInt_natCast, BitVec.toNat_ofNat]
      rw [show (65535#32).toNat = 2 ^ 16 - 1 from rfl, Nat.and_two_pow_sub_one_eq_mod]
      omega
    rw [shifted, BitVec.toNat_shiftLeft, hmask, Nat.shiftLeft_eq]
    omega
  have hl : l.toNat = l.toNat / 65536 * 65536 + l.toNat % 65536 := by omega
  have hr : r.toNat = r.toNat / 65536 * 65536 + r.toNat % 65536 := by omega
  refine BitVec.eq_of_toNat_eq ?_
  rw [BitVec.ofInt_add, BitVec.ofInt_toInt, BitVec.ofInt_natCast, BitVec.toNat_add,
    BitVec.toNat_ofNat, hshift, BitVec.toNat_mul]
  have hsplit : l.toNat * r.toNat = l.toNat % 65536 * (r.toNat % 65536) + middle l r * 65536
      + l.toNat / 65536 * (r.toNat / 65536) * 2 ^ 32 := by
    unfold middle
    conv_lhs => rw [hl, hr]
    ring
  rw [hsplit]
  omega

end Halves

/-! ### Evaluation -/

section Evaluation

variable {call : String → List Value → Run Value} {fuel : ℕ} {P : Observation → Prop}

open Traced

/-- What is asked of the trace of `$zryna$imul`: `P` holds of every event of the function whose
arithmetic is exact. -/
def AllowsImul (P : Observation → Prop) : Prop :=
  ∀ event : Observation, event.function = imul.name → event.Exact → P event

theorem AllowsImul.access (h : AllowsImul P) (name : String) (value : Value) :
    P (.access imul.name name value) := h _ rfl trivial

variable {x y : ℤ} {lhs rhs : Expr} {scope : Scope} {mutable : Bool} {name : String}

theorem AllowsImul.arithmetic (h : AllowsImul P) (op : BinaryOp)
    (hsmall : |op.onInt x y| < 2 ^ 53) :
    P (.arithmetic imul.name op (.ofInt x) (.ofInt y) (.ofInt (op.onInt x y))) :=
  h _ rfl ⟨x, y, rfl, rfl, rfl, hsmall⟩

/-- A sum of small integers. -/
theorem yields_sum (h : AllowsImul P)
    (hsmall : |x + y| < 2 ^ 53) (hx : Yields P (eval call imul.name scope lhs) (.number (.ofInt x)))
    (hy : Yields P (eval call imul.name scope rhs) (.number (.ofInt y))) :
    Yields P (eval call imul.name scope (.binary .add lhs rhs)) (.number (.ofInt (x + y))) :=
  yields_arithmetic (.inl rfl) (congrArg Value.number (Number.add_ofInt hsmall))
    (h.arithmetic .add hsmall) hx hy

/-- A product of two halves. -/
theorem yields_product (h : AllowsImul P) {a b : ℕ} (ha : a < 65536) (hb : b < 65536)
    (hx : Yields P (eval call imul.name scope lhs) (.number (.ofInt a)))
    (hy : Yields P (eval call imul.name scope rhs) (.number (.ofInt b))) :
    Yields P (eval call imul.name scope (.binary .mul lhs rhs))
      (.number (.ofInt ((a : ℤ) * (b : ℤ)))) := by
  have hsmall : |(a : ℤ) * (b : ℤ)| < 2 ^ 53 := by
    have hlt := product_lt ha hb
    rw [← Nat.cast_mul, Nat.abs_cast]
    exact_mod_cast hlt.trans (by norm_num)
  exact yields_arithmetic (.inr (.inr rfl))
    (congrArg Value.number (Number.mul_ofInt (Int.natCast_nonneg a) (Int.natCast_nonneg b) hsmall))
    (h.arithmetic .mul hsmall) hx hy

/-- The low half of a variable. -/
theorem yields_low (h : AllowsImul P)
    {x : BitVec 32} (hscope : scope name = some ⟨mutable, .number (.ofInt32 x)⟩) :
    Yields P (eval call imul.name scope (.binary .bitAnd (.ident name) (.number 65535)))
      (.number (.ofInt (x.toNat % 65536 : ℕ))) := by
  have hbits : BinaryOp.apply .bitAnd (.number (.ofInt32 x)) (.number (.ofInt (65535 : ℕ)))
      = .number (.ofInt (x.toNat % 65536 : ℕ)) := by
    rw [← toInt_low, BinaryOp.apply]
    simp only [Value.toNumber, Number.bitAnd, Number.toInt32_ofInt32, Number.toInt32_ofInt]
    rfl
  rw [← hbits]
  exact yields_binary (by decide) (yields_ident hscope (h.access _ _))
    (yields_number (by norm_num))

/-- The high half of a variable. -/
theorem yields_high (h : AllowsImul P)
    {x : BitVec 32} (hscope : scope name = some ⟨mutable, .number (.ofInt32 x)⟩) :
    Yields P (eval call imul.name scope (.binary .unsignedShiftRight (.ident name) (.number 16)))
      (.number (.ofInt (x.toNat / 65536 : ℕ))) := by
  have hbits : BinaryOp.apply .unsignedShiftRight (.number (.ofInt32 x)) (.number (.ofInt (16 : ℕ)))
      = .number (.ofInt (x.toNat / 65536 : ℕ)) := by
    rw [← toNat_high, BinaryOp.apply]
    simp only [Value.toNumber, Number.unsignedShiftRight, Number.shiftCount,
      Number.toInt32_ofInt32, Number.toInt32_ofInt]
    rfl
  rw [← hbits]
  exact yields_binary (by decide) (yields_ident hscope (h.access _ _))
    (yields_number (by norm_num))

/-- The variables of `$zryna$imul` when it returns. -/
structure Split (scope : Scope) (l r : BitVec 32) : Prop where
  leftLow : scope "$zryna$leftLow" = some ⟨false, .number (.ofInt (l.toNat % 65536 : ℕ))⟩
  leftHigh : scope "$zryna$leftHigh" = some ⟨false, .number (.ofInt (l.toNat / 65536 : ℕ))⟩
  rightLow : scope "$zryna$rightLow" = some ⟨false, .number (.ofInt (r.toNat % 65536 : ℕ))⟩
  rightHigh : scope "$zryna$rightHigh" = some ⟨false, .number (.ofInt (r.toNat / 65536 : ℕ))⟩

theorem Split.ident (h : AllowsImul P) {n : ℕ}
    (hscope : scope name = some ⟨mutable, .number (.ofInt n)⟩) :
    Yields P (eval call imul.name scope (.ident name)) (.number (.ofInt n)) :=
  yields_ident hscope (h.access _ _)

/-- The returned expression is the product. -/
theorem Split.yields (h : AllowsImul P) {l r : BitVec 32} (hs : Split scope l r) :
    Yields P (eval call imul.name scope productExpr) (.number (.ofInt32 (l * r))) := by
  obtain ⟨hll, hlh⟩ := halves_lt l
  obtain ⟨hrl, hrh⟩ := halves_lt r
  have paren : ∀ {inner : Expr} {v : Value}, Yields P (eval call imul.name scope inner) v →
      Yields P (eval call imul.name scope (.paren inner)) v := by
    intro inner v hinner
    rwa [eval]
  -- the middle products are at most `2 ^ 33`
  have hmiddle : Yields P (eval call imul.name scope middleExpr)
      (.number (.ofInt (middle l r))) := by
    have hcast : ((middle l r : ℕ) : ℤ) = ((l.toNat / 65536 : ℕ) : ℤ) * ((r.toNat % 65536 : ℕ) : ℤ)
        + ((l.toNat % 65536 : ℕ) : ℤ) * ((r.toNat / 65536 : ℕ) : ℤ) := by
      simp [middle]
    have hsmall : |((middle l r : ℕ) : ℤ)| < 2 ^ 53 := by
      rw [Nat.abs_cast]
      exact_mod_cast (middle_lt l r).trans (by norm_num)
    rw [hcast] at hsmall ⊢
    exact paren (yields_sum h hsmall
      (yields_product h hlh hrl (Split.ident h hs.leftHigh) (Split.ident h hs.rightLow))
      (yields_product h hll hrh (Split.ident h hs.leftLow) (Split.ident h hs.rightHigh)))
  -- the shift is signed, so their contribution may be negative
  have hshifted : Yields P (eval call imul.name scope shiftedExpr)
      (.number (.ofInt (shifted l r).toInt)) := by
    have hbits : BinaryOp.apply .shiftLeft
        (BinaryOp.apply .bitAnd (.number (.ofInt (middle l r))) (.number (.ofInt (65535 : ℕ))))
        (.number (.ofInt (16 : ℕ))) = .number (.ofInt (shifted l r).toInt) := by
      simp only [BinaryOp.apply, Value.toNumber, Number.bitAnd, Number.shiftLeft,
        Number.shiftCount, Number.toInt32_ofInt32, Number.toInt32_ofInt]
      rfl
    rw [← hbits]
    exact paren (yields_binary (by decide)
      (paren (yields_binary (by decide) hmiddle (yields_number (by norm_num))))
      (yields_number (by norm_num)))
  have hsum : |((l.toNat % 65536 : ℕ) : ℤ) * ((r.toNat % 65536 : ℕ) : ℤ) + (shifted l r).toInt|
      < 2 ^ 53 := by
    have hlow : (((l.toNat % 65536) * (r.toNat % 65536) : ℕ) : ℤ) < 2 ^ 32 := by
      exact_mod_cast product_lt hll hrl
    have hupper : (shifted l r).toInt < 2 ^ 31 := BitVec.toInt_lt
    have hlower : -2 ^ 31 ≤ (shifted l r).toInt := BitVec.le_toInt _
    rw [← Nat.cast_mul, abs_lt]
    constructor <;> omega
  have hbits : BinaryOp.apply .bitOr
      (.number (.ofInt (((l.toNat % 65536 : ℕ) : ℤ) * ((r.toNat % 65536 : ℕ) : ℤ)
        + (shifted l r).toInt))) (.number (.ofInt (0 : ℕ))) = .number (.ofInt32 (l * r)) := by
    rw [← ofInt_low_add_shifted, BinaryOp.apply]
    simp only [Value.toNumber, Number.bitOr, Number.toInt32_ofInt, Nat.cast_mul]
    simp
  rw [← hbits]
  exact yields_binary (by decide)
    (paren (yields_sum h hsum
      (yields_product h hll hrl (Split.ident h hs.leftLow) (Split.ident h hs.rightLow)) hshifted))
    (yields_number (by norm_num))

/-- **The prelude multiplies.** `$zryna$imul` returns the wrapping product of its arguments, and
its arithmetic is exact. -/
theorem yields_imul (h : AllowsImul P) (l r : BitVec 32) :
    Yields P (execBody call fuel imul [.number (.ofInt32 l), .number (.ofInt32 r)])
      (.number (.ofInt32 (l * r))) := by
  let s₀ : Scope := enter imul.parameters [.number (.ofInt32 l), .number (.ofInt32 r)] fun _ => none
  let s₁ := s₀.declare "$zryna$leftLow" false (.number (.ofInt (l.toNat % 65536 : ℕ)))
  let s₂ := s₁.declare "$zryna$leftHigh" false (.number (.ofInt (l.toNat / 65536 : ℕ)))
  let s₃ := s₂.declare "$zryna$rightLow" false (.number (.ofInt (r.toNat % 65536 : ℕ)))
  let s₄ := s₃.declare "$zryna$rightHigh" false (.number (.ofInt (r.toNat / 65536 : ℕ)))
  have hleft : s₀ "$zryna$left" = some ⟨true, .number (.ofInt32 l)⟩ := by
    simp [s₀, imul, enter, Scope.declare_of_ne]
  have hleft₁ : s₁ "$zryna$left" = some ⟨true, .number (.ofInt32 l)⟩ := by
    simp [s₁, Scope.declare_of_ne, hleft]
  have hright₂ : s₂ "$zryna$right" = some ⟨true, .number (.ofInt32 r)⟩ := by
    simp [s₂, s₁, s₀, imul, enter, Scope.declare_of_ne]
  have hright₃ : s₃ "$zryna$right" = some ⟨true, .number (.ofInt32 r)⟩ := by
    simp [s₃, Scope.declare_of_ne, hright₂]
  have hsplit : Split s₄ l r := by
    constructor <;> simp [s₄, s₃, s₂, s₁, Scope.declare_of_ne]
  have hreturn : Yields P (execStmt call imul.name fuel s₄ (.ret productExpr))
      (s₄, .exit (.number (.ofInt32 (l * r)))) := by
    rw [execStmt]
    exact (hsplit.yields h).bind (Yields.pure _)
  have hbody : Yields P (exec call imul.name fuel s₀ imul.body)
      (s₄, .exit (.number (.ofInt32 (l * r)))) := by
    refine Yields.exec_cons (yields_constant (yields_low h hleft) (h.access _ _))
      (Yields.exec_cons (yields_constant (yields_high h hleft₁) (h.access _ _))
        (Yields.exec_cons (yields_constant (yields_low h hright₂) (h.access _ _))
          (Yields.exec_cons (yields_constant (yields_high h hright₃) (h.access _ _)) ?_)))
    rwa [exec_singleton]
  exact hbody.bind (Yields.pure _)

end Evaluation

end Zryna.Backend.JavaScript
