import Mathlib.Algebra.BigOperators.Group.List.Basic
import Mathlib.Data.List.Nodup
import Mathlib.Algebra.Ring.Nat

/-!
# Ledgers

A ledger of charges: amounts under keys that are given out once, and the keys that were paid back,
each at most once. What is outstanding changes by one charge at a time, so a counter and a total
that follow the charges and the repayments are exact.
-/

namespace Zryna

open List

/-- Charges and repayments, in the order in which they were made. -/
structure Ledger (κ : Type) where
  charged : List (κ × ℕ)
  repaid : List κ

namespace Ledger

variable {κ : Type}

def keys (l : Ledger κ) : List κ := l.charged.map Prod.fst

def outstanding [DecidableEq κ] (l : Ledger κ) : List (κ × ℕ) :=
  l.charged.filter fun charge => charge.1 ∉ l.repaid

/-- The number of outstanding charges. -/
def count [DecidableEq κ] (l : Ledger κ) : ℕ := l.outstanding.length

/-- The sum of outstanding charges. -/
def total [DecidableEq κ] (l : Ledger κ) : ℕ := (l.outstanding.map Prod.snd).sum

/-- No key is charged twice or repaid twice, and only charges are repaid. -/
structure Valid (l : Ledger κ) : Prop where
  nodup_keys : l.keys.Nodup
  nodup_repaid : l.repaid.Nodup
  repaid_subset : l.repaid ⊆ l.keys

def charge (l : Ledger κ) (k : κ) (n : ℕ) : Ledger κ := { l with charged := l.charged ++ [(k, n)] }

def repay (l : Ledger κ) (k : κ) : Ledger κ := { l with repaid := l.repaid ++ [k] }

variable {l : Ledger κ} {k : κ} {n : ℕ}

theorem keys_charge : (l.charge k n).keys = l.keys ++ [k] := by
  rw [keys, charge, map_append]
  rfl

theorem Valid.charge (h : l.Valid) (hk : k ∉ l.keys) : (l.charge k n).Valid where
  nodup_keys := by
    rw [keys_charge, nodup_append]
    refine ⟨h.nodup_keys, nodup_singleton k, fun a ha b hb => ?_⟩
    rw [mem_singleton.mp hb]
    exact ne_of_mem_of_not_mem ha hk
  nodup_repaid := h.nodup_repaid
  repaid_subset := by
    rw [keys_charge]
    exact List.Subset.trans h.repaid_subset (subset_append_left ..)

variable [DecidableEq κ]

theorem mem_outstanding {c : κ × ℕ} : c ∈ l.outstanding ↔ c ∈ l.charged ∧ c.1 ∉ l.repaid := by
  rw [outstanding, mem_filter, decide_eq_true_eq]

section

variable (h : l.Valid)

include h

theorem outstanding_charge (hk : k ∉ l.keys) :
    (l.charge k n).outstanding = l.outstanding ++ [(k, n)] := by
  have hrepaid : k ∉ l.repaid := fun hmem => hk (h.repaid_subset hmem)
  show (l.charged ++ [(k, n)]).filter _ = _
  have hlast : [(k, n)].filter (fun charge => charge.1 ∉ l.repaid) = [(k, n)] := by
    simp [hrepaid]
  rw [filter_append]
  exact congrArg _ hlast

theorem count_charge (hk : k ∉ l.keys) : (l.charge k n).count = l.count + 1 := by
  rw [count, outstanding_charge h hk, length_append]
  rfl

theorem total_charge (hk : k ∉ l.keys) : (l.charge k n).total = l.total + n := by
  rw [total, outstanding_charge h hk, map_append, sum_append]
  simp [total]

theorem Valid.repay (hk : (k, n) ∈ l.outstanding) : (l.repay k).Valid where
  nodup_keys := h.nodup_keys
  nodup_repaid := by
    show (l.repaid ++ [k]).Nodup
    rw [nodup_append]
    refine ⟨h.nodup_repaid, nodup_singleton k, fun a ha b hb => ?_⟩
    rw [mem_singleton.mp hb]
    exact ne_of_mem_of_not_mem ha (mem_outstanding.mp hk).2
  repaid_subset := by
    show l.repaid ++ [k] ⊆ l.keys
    refine append_subset.mpr ⟨h.repaid_subset, ?_⟩
    intro a ha
    rw [mem_singleton.mp ha]
    exact mem_map_of_mem (mem_outstanding.mp hk).1

variable (hk : (k, n) ∈ l.outstanding)

include hk

/-- A repayment takes its own charge out, and no other. -/
theorem outstanding_perm_repay : l.outstanding.Perm ((k, n) :: (l.repay k).outstanding) := by
  have hnodup : l.outstanding.Nodup := (h.nodup_keys.of_map).filter _
  have hrest : (l.repay k).outstanding = l.outstanding.erase (k, n) := by
    rw [hnodup.erase_eq_filter]
    show l.charged.filter _ = (l.charged.filter _).filter _
    rw [filter_filter]
    refine filter_congr fun c hc => ?_
    -- the key tells the charge
    have hkey : c.1 = k ↔ c = (k, n) := by
      constructor
      · exact fun heq => inj_on_of_nodup_map h.nodup_keys hc (mem_outstanding.mp hk).1 heq
      · rintro rfl
        rfl
    rw [Bool.eq_iff_iff]
    simp [repay, hkey, and_comm]
  rw [hrest]
  exact perm_cons_erase hk

theorem count_repay : (l.repay k).count + 1 = l.count :=
  (outstanding_perm_repay h hk).length_eq.symm

theorem total_repay : (l.repay k).total + n = l.total := by
  rw [total, total, ((outstanding_perm_repay h hk).map Prod.snd).sum_eq, map_cons,
    sum_cons, add_comm]

end

/-- When nothing is outstanding, all charges are repaid. -/
theorem keys_subset_repaid (h : l.count = 0) : l.keys ⊆ l.repaid := by
  intro k hk
  obtain ⟨c, hc, rfl⟩ := mem_map.mp hk
  by_contra hnot
  have hmem := mem_outstanding.mpr ⟨hc, hnot⟩
  rw [length_eq_zero_iff.mp h] at hmem
  exact not_mem_nil hmem

end Ledger

end Zryna
