import Zryna.Ir.ControlFlow.Soundness

/-!
# Counting the values of a function

What the backends lay out: the number of values of a function, the parameters of each block, and
the largest number of parameters an edge has to bind. In a verified function the value numbers are
exactly the numbers below the count.
-/

namespace Zryna.Ir.ControlFlow

open List

section

variable (function : Function)

def blockValueCount : ℕ :=
  (function.blocks.map fun block => block.parameters.length + block.instructions.length).sum

def valueCount : ℕ := function.parameters.length + blockValueCount function

def blockParameters : List (List ℕ) :=
  function.blocks.map fun block => block.parameters.map ValueDefinition.id

def largestParameterCount : ℕ :=
  (function.blocks.map fun block => block.parameters.length).foldl max 0

end

variable {program : Program} {function : Function}

theorem length_located (function : Function) : function.located.length = valueCount function := by
  unfold valueCount blockValueCount
  rw [Function.located_eq, length_append, length_map, length_flatMap]
  congr 2
  rw [← map_fst_zipIdx_map function.blocks 0 fun block =>
    block.parameters.length + block.instructions.length]
  refine map_congr_left fun entry _ => ?_
  simp [blockLocated]

/-- Value numbers are below the count. -/
theorem id_lt_valueCount (h : WellFormed program function)
    {entry : ValueDefinition × DefinitionLocation} (he : entry ∈ function.located) :
    entry.1.id < valueCount function := by
  rw [← length_located]
  exact (List.getElem?_eq_some_iff.mp (h.located_id he)).1

theorem block_parameters_le {b : ℕ} {block : Block} (hb : function.blocks[b]? = some block) :
    block.parameters.length ≤ largestParameterCount function := by
  have hmem : block.parameters.length ∈ function.blocks.map fun block => block.parameters.length :=
    mem_map.mpr ⟨block, mem_of_getElem? hb, rfl⟩
  exact (foldl_max_le.mp le_rfl).2 _ hmem

theorem getD_blockParameters {b : ℕ} {block : Block} (hb : function.blocks[b]? = some block) :
    (blockParameters function).getD b [] = block.parameters.map ValueDefinition.id := by
  simp [blockParameters, hb]

theorem WellFormed.parameter_id (h : WellFormed program function) {i : ℕ} {d : ValueDefinition}
    (hd : function.parameters[i]? = some d) : d.id = i := by
  have hloc : function.located[i]? = some (d, .parameter) := by
    have hlt : i < function.parameters.length := (List.getElem?_eq_some_iff.mp hd).1
    rw [Function.located_eq, getElem?_append_left (by simpa using hlt), getElem?_map, hd]
    rfl
  exact (h.dense i _ hloc).1

theorem env_of_readOperand {env : Env} {id : ℕ} {v : Value}
    (h : readOperand function env id = some v) : env id = some v := by
  unfold readOperand at h
  exact (Option.filter_eq_some_iff.mp h).1

theorem length_of_readOperands {env : Env} {ids : List ℕ} {values : List Value}
    (h : readOperands function env ids = some values) : values.length = ids.length := by
  induction ids generalizing values with
  | nil => cases h; rfl
  | cons id ids ih =>
    rw [readOperands] at h
    obtain ⟨v, -, hrest⟩ := Option.bind_eq_some_iff.mp h
    obtain ⟨vs, hvs, rfl⟩ := Option.map_eq_some_iff.mp hrest
    simp [ih hvs]

end Zryna.Ir.ControlFlow
