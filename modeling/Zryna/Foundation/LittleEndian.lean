import Mathlib.Data.List.Basic
import Mathlib.Algebra.Ring.Nat

/-!
# Little-endian integers

Integers as bytes of a fixed width, least significant first, and a reader that takes such an
integer from the front of its input. A written integer that fits its width is read back
(`takeLe_leBytes`), and a 32-bit lane is read exactly where its bytes stand (`takeLane_eq_some`).
-/

namespace Zryna

open List

/-- The low `width` bytes of a value. -/
def leBytes : ℕ → ℕ → List ℕ
  | 0, _ => []
  | width + 1, value => value % 256 :: leBytes width (value / 256)

/-- An integer of `width` bytes and the input after it. -/
def takeLe : ℕ → List ℕ → Option (ℕ × List ℕ)
  | 0, input => some (0, input)
  | _ + 1, [] => none
  | width + 1, byte :: input =>
    (takeLe width input).map fun (high, rest) => (byte + 256 * high, rest)

@[simp] theorem length_leBytes (width value : ℕ) : (leBytes width value).length = width := by
  induction width generalizing value with
  | zero => rfl
  | succ width ih => rw [leBytes, length_cons, ih]

theorem lt_of_mem_leBytes {width value byte : ℕ} (h : byte ∈ leBytes width value) : byte < 256 := by
  induction width generalizing value with
  | zero => cases h
  | succ width ih =>
    obtain rfl | h := mem_cons.mp h
    · exact Nat.mod_lt _ (by decide)
    · exact ih h

/-- What was written is read back, and the input after it is left alone. -/
theorem takeLe_leBytes {width value : ℕ} (h : value < 256 ^ width) (rest : List ℕ) :
    takeLe width (leBytes width value ++ rest) = some (value, rest) := by
  induction width generalizing value with
  | zero =>
    obtain rfl : value = 0 := by simpa using h
    rfl
  | succ width ih =>
    have hhigh : value / 256 < 256 ^ width := by
      rw [Nat.pow_succ] at h
      exact Nat.div_lt_of_lt_mul (by rwa [Nat.mul_comm])
    rw [leBytes, cons_append, takeLe, ih hhigh]
    simp only [Option.map_some, Nat.mod_add_div]

theorem leBytes_inj {width value value' : ℕ} (h : value < 256 ^ width) (h' : value' < 256 ^ width)
    (heq : leBytes width value = leBytes width value') : value = value' := by
  have hread := takeLe_leBytes h []
  rw [heq, takeLe_leBytes h' [], Option.some.injEq, Prod.mk.injEq] at hread
  exact hread.1.symm

/-! ### 32-bit lanes -/

/-- The four bytes of a 32-bit lane. -/
def laneBytes (lane : UInt32) : List UInt8 := (leBytes 4 lane.toNat).map UInt8.ofNat

/-- A 32-bit lane and the input after it. -/
def takeLane : List UInt8 → Option (UInt32 × List UInt8)
  | a :: b :: c :: d :: rest =>
    some (UInt32.ofNat (a.toNat + 256 * (b.toNat + 256 * (c.toNat + 256 * d.toNat))), rest)
  | _ => none

@[simp] theorem length_laneBytes (lane : UInt32) : (laneBytes lane).length = 4 := by
  rw [laneBytes, length_map, length_leBytes]

theorem laneBytes_eq (lane : UInt32) :
    laneBytes lane = [UInt8.ofNat (lane.toNat % 256), UInt8.ofNat (lane.toNat / 256 % 256),
      UInt8.ofNat (lane.toNat / 256 / 256 % 256),
      UInt8.ofNat (lane.toNat / 256 / 256 / 256 % 256)] := rfl

theorem takeLane_laneBytes (lane : UInt32) (rest : List UInt8) :
    takeLane (laneBytes lane ++ rest) = some (lane, rest) := by
  have hlane := lane.toNat_lt
  rw [laneBytes_eq]
  simp only [cons_append, nil_append, takeLane, Option.some.injEq, Prod.mk.injEq,
    and_true]
  rw [← UInt32.toNat_inj, UInt32.toNat_ofNat']
  simp only [UInt8.toNat_ofNat']
  omega

/-- A lane is read exactly where its bytes stand. -/
theorem takeLane_eq_some {input rest : List UInt8} {lane : UInt32} :
    takeLane input = some (lane, rest) ↔ input = laneBytes lane ++ rest := by
  refine ⟨fun h => ?_, fun h => by rw [h, takeLane_laneBytes]⟩
  match input, h with
  | a :: b :: c :: d :: tail, h =>
    rw [takeLane, Option.some.injEq, Prod.mk.injEq] at h
    obtain ⟨rfl, rfl⟩ := h
    have ha := a.toNat_lt
    have hb := b.toNat_lt
    have hc := c.toNat_lt
    have hd := d.toNat_lt
    rw [laneBytes_eq]
    simp only [cons_append, nil_append, List.cons.injEq, and_true,
      ← UInt8.toNat_inj, UInt8.toNat_ofNat', UInt32.toNat_ofNat']
    omega

/-- A lane is told from what follows it. -/
theorem laneBytes_append_inj {x y : UInt32} {r s : List UInt8} :
    laneBytes x ++ r = laneBytes y ++ s ↔ x = y ∧ r = s := by
  refine ⟨fun h => ?_, fun ⟨hx, hr⟩ => by rw [hx, hr]⟩
  have hread := takeLane_laneBytes x r
  rw [h, takeLane_laneBytes, Option.some.injEq, Prod.mk.injEq] at hread
  exact ⟨hread.1.symm, hread.2.symm⟩

end Zryna
