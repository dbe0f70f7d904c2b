import Zryna.Semantics.ControlFlow.Canonical
import Zryna.Semantics.ControlFlow.Liveness

/-!
# The end of lowering a function

Pruning and renumbering together. For a body in SSA form the pruning removes exactly the
parameters that are not live, the renumbering is a bijection onto the numbers below the count of
the remaining values, and every call evaluates as before (`PrunedAndNumbered`).
-/

namespace Zryna.Semantics.ControlFlow

open Zryna.Ir.ControlFlow List

/-- The body after the pruning. -/
def pruned (function : Function) : Function := function.thin (keeps function.blocks)

/-- What pruning and renumbering do to a function. -/
structure PrunedAndNumbered (function : Function) : Prop where
  /-- A parameter stays exactly when it is live. -/
  keeps_iff : ∀ block ∈ function.blocks, ∀ d ∈ block.parameters,
    keeps function.blocks d.id = true ↔ Live function d.id
  /-- The other parameters are dropped, with the argument of each on every edge. -/
  prune_eq : pruneDeadBlockParameters function.blocks = some (pruned function).blocks
  /-- No operand refers to a value that was removed. -/
  closed : ∀ x ∈ (pruned function).operands, x ∈ (pruned function).ids
  /-- The renumbering is refused only to bodies beyond the limit. -/
  succeeds_iff : (∃ body, canonicalizeValues function.parameters (pruned function).blocks
    = .ok body) ↔ valueCount (pruned function) ≤ maxValuesPerFunction
  /-- Numbers below the limit leave no more values than the limit. -/
  within : (∀ x ∈ function.ids, x < maxValuesPerFunction) →
    valueCount (pruned function) ≤ maxValuesPerFunction
  /-- The values are renamed by a bijection, in the order of their definitions, and calls of any
  function of a program have the same outcomes as before. -/
  numbered : ∀ parameters blocks,
    canonicalizeValues function.parameters (pruned function).blocks = .ok (parameters, blocks) →
    ∃ ρ, Set.BijOn ρ {x | x ∈ (pruned function).ids} (Set.Iio (valueCount (pruned function)))
      ∧ { function with parameters := parameters, blocks := blocks } = (pruned function).rename ρ
      ∧ ((pruned function).rename ρ).ids = List.range (valueCount (pruned function))
      ∧ ∀ (program : Program) (id : FunctionId), program.function? id = some function →
        ∀ (fuel : ℕ) (callee : FunctionId) (arguments : List Value),
          run (program.replace id { function with parameters := parameters, blocks := blocks })
            fuel callee arguments = run program fuel callee arguments

variable {function : Function}

theorem nodup_ids_pruned (h : SsaBody function) : (pruned function).ids.Nodup :=
  (ids_thin_sublist function _).nodup h.distinct

theorem canonicalizeValues_pruned (h : SsaBody function) :
    canonicalizeValues function.parameters (pruned function).blocks
      = if valueCount (pruned function) ≤ maxValuesPerFunction then
          .ok (((pruned function).rename (position (pruned function).ids)).parameters,
            ((pruned function).rename (position (pruned function).ids)).blocks)
        else .error (Diagnostic.error "ZRYNA-M2201" none
          "control-flow lowering exceeds the deterministic IR value limit"
          "reduce expressions and live mutable state before semantic analysis") := by
  refine canonicalizeValues_eq (nodup_ids_pruned h) (fun block hb => ?_) (closed_of_ssa h)
  obtain ⟨block', hb', rfl⟩ := mem_map.mp hb
  obtain ⟨t, ht⟩ := h.terminator block' hb'
  exact ⟨_, congrArg (List.map _) ht⟩

/-- Distinct numbers below a bound are at most that many. -/
theorem valueCount_pruned_le (h : SsaBody function) {bound : ℕ}
    (hbound : ∀ x ∈ function.ids, x < bound) : valueCount (pruned function) ≤ bound := by
  rw [← length_ids]
  calc (pruned function).ids.length = (pruned function).ids.toFinset.card :=
        (toFinset_card_of_nodup (nodup_ids_pruned h)).symm
    _ ≤ (Finset.range bound).card := by
        refine Finset.card_le_card fun x hx => Finset.mem_range.mpr (hbound x ?_)
        exact (ids_thin_sublist function _).mem (mem_toFinset.mp hx)
    _ = bound := Finset.card_range bound

theorem prunedAndNumbered (function : Function) (h : SsaBody function) :
    PrunedAndNumbered function where
  keeps_iff _ hb _ hd := keeps_iff h hb hd
  prune_eq := pruneDeadBlockParameters_eq h
  closed := closed_of_ssa h
  succeeds_iff := by
    rw [canonicalizeValues_pruned h]
    split
    · next hfits => exact iff_of_true ⟨_, rfl⟩ hfits
    · next hover => exact iff_of_false (fun ⟨_, hok⟩ => by cases hok) hover
  within := valueCount_pruned_le h
  numbered parameters blocks hok := by
    have hids := nodup_ids_pruned h
    rw [canonicalizeValues_pruned h] at hok
    split at hok
    · obtain ⟨rfl, rfl⟩ := Prod.mk.inj (Except.ok.inj hok)
      have hthin : Thinnable function (keeps function.blocks) (position (pruned function).ids) :=
        ⟨h, closed_of_ssa h, (position_bijOn hids).injOn⟩
      refine ⟨position (pruned function).ids, position_bijOn hids, rfl,
        ids_rename_position hids, fun program id hf fuel callee arguments => ?_⟩
      exact congrFun (congrFun (hthin.run_replace hf fuel) callee) arguments
    · cases hok

/-! A loop that carries a value which nothing uses. -/

/-- `b0: jump b1(0); b1(1): branch 0, b1(1), b2(); b2: return 0` -/
def carriedLoop : Function :=
  let span : Span := ⟨⟨0, 0⟩, 0, 0⟩
  { id := ⟨0, 0⟩
    entryExport := none
    span := span
    parameters := [⟨0, .bool, span⟩]
    result := .bool
    blocks := [
      ⟨0, [], [], [⟨span, .jump 1 [0]⟩]⟩,
      ⟨1, [⟨1, .bool, span⟩], [], [⟨span, .branch 0 1 [1] 2 []⟩]⟩,
      ⟨2, [], [], [⟨span, .return 0⟩]⟩] }

/-- The parameter of the function is defined everywhere, the one of the loop in the loop. -/
theorem carriedLoop_definedAt (b k : ℕ) : carriedLoop.DefinedAt 0 b k
    ∧ carriedLoop.DefinedAt 1 1 k :=
  ⟨⟨(⟨0, .bool, ⟨⟨0, 0⟩, 0, 0⟩⟩, .parameter), by decide, rfl, trivial⟩,
    ⟨(⟨1, .bool, ⟨⟨0, 0⟩, 0, 0⟩⟩, .blockParameter 1), by decide, rfl, Dominates.refl⟩⟩

theorem carriedLoop_ssa : SsaBody carriedLoop where
  distinct := by decide
  entry_parameters := by
    rintro block ⟨⟩
    rfl
  terminator := by simp [carriedLoop]
  edge := by
    have hedges : carriedLoop.edges = [⟨0, 1, [0]⟩, ⟨1, 1, [1]⟩, ⟨1, 2, []⟩] := rfl
    rw [hedges]
    simp only [mem_cons, not_mem_nil, or_false, forall_eq_or_imp, forall_eq]
    exact ⟨⟨_, rfl, rfl⟩, ⟨_, rfl, rfl⟩, ⟨_, rfl, rfl⟩⟩
  instruction_use b block hb k i hi := by
    have hnone : block.instructions = [] := by
      have hmem := mem_of_getElem? hb
      simp only [carriedLoop, mem_cons, not_mem_nil, or_false] at hmem
      obtain rfl | rfl | rfl := hmem <;> rfl
    rw [hnone] at hi
    cases hi
  terminator_use b block hb t ht x hx := by
    match b, hb with
    | 0, rfl =>
      cases ht
      obtain rfl := mem_singleton.mp hx
      exact (carriedLoop_definedAt _ _).1
    | 1, rfl =>
      cases ht
      obtain rfl | hx := mem_cons.mp hx
      · exact (carriedLoop_definedAt _ _).1
      · obtain rfl := mem_singleton.mp hx
        exact (carriedLoop_definedAt 0 _).2
    | 2, rfl =>
      cases ht
      obtain rfl := mem_singleton.mp hx
      exact (carriedLoop_definedAt _ _).1

theorem prunedAndNumbered_carriedLoop : PrunedAndNumbered carriedLoop :=
  prunedAndNumbered carriedLoop carriedLoop_ssa

end Zryna.Semantics.ControlFlow
