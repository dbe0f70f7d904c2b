import Zryna.Ir.ControlFlow.Verified

/-!
# Soundness of the verifier

A verified program never gets stuck. The proof is an invariant along runs of the machine:

* `EnvOk`: in every activation, each value whose definition is available at the current position
  is bound and carries its declared type. Availability comes from the dominator intervals, so the
  clause is pulled back along the edge that is taken (`EnvOk.takeEdge`); the values that are not
  pulled back are exactly the parameters of the target, which the edge binds.
* `StackOk`: every waiting frame stands at a call of the function above it, so the result that is
  handed down has the type of the call.

`step_ok` shows that a running state with the invariant steps to a state with the invariant.
`verify_sound` collects the result for whole runs; the bound on nested calls is read off the call
order (`StackOk.length_lt`).
-/

namespace Zryna.Ir.ControlFlow

open List

variable {program : Program} {function : Function}

/-! ### Located definitions -/

variable {d : ValueDefinition} {location : DefinitionLocation} {ids : List ℕ}
  {parameters : List ValueDefinition} {target : ℕ}

theorem mem_located :
    (d, location) ∈ function.located ↔
      match location with
      | .parameter => d ∈ function.parameters
      | .blockParameter b => ∃ block, function.blocks[b]? = some block ∧ d ∈ block.parameters
      | .instruction b k => ∃ block i, function.blocks[b]? = some block
          ∧ block.instructions[k]? = some i ∧ d = i.result := by
  unfold Function.located
  simp only [mem_append, mem_map, mem_flatMap, Prod.mk.injEq, Prod.exists,
    mk_mem_zipIdx_iff_getElem?]
  cases location with
  | parameter => simp
  | blockParameter b => simp
  | instruction b k =>
    simp only [reduceCtorEq, and_false, exists_false, false_or, DefinitionLocation.instruction.injEq]
    constructor
    · rintro ⟨block, b', hb, i, k', hi, rfl, rfl, rfl⟩
      exact ⟨block, i, hb, hi, rfl⟩
    · rintro ⟨block, i, hb, hi, rfl⟩
      exact ⟨block, b, hb, i, k, hi, rfl, rfl, rfl⟩

/-- Dense values sit at their own number. -/
theorem WellFormed.located_id (h : WellFormed program function)
    {entry : ValueDefinition × DefinitionLocation} (he : entry ∈ function.located) :
    function.located[entry.1.id]? = some entry := by
  obtain ⟨i, hi⟩ := mem_iff_getElem?.mp he
  rwa [(h.dense i entry hi).1]

theorem valueTable_getElem? {id : ℕ} {info : ValueInfo} :
    function.valueTable[id]? = some info ↔
      ∃ d, function.located[id]? = some (d, info.location) ∧ d.ty = info.ty := by
  unfold Function.valueTable
  rw [getElem?_map]
  cases hl : function.located[id]? with
  | none => simp
  | some entry =>
    obtain ⟨d, location⟩ := entry
    obtain ⟨ty, location'⟩ := info
    simp only [Option.map_some, valueInfo, Option.some.injEq, ValueInfo.mk.injEq, Prod.mk.injEq]
    constructor
    · rintro ⟨rfl, rfl⟩
      exact ⟨d, ⟨rfl, rfl⟩, rfl⟩
    · rintro ⟨_, ⟨rfl, rfl⟩, rfl⟩
      exact ⟨rfl, rfl⟩

/-- The table entry of a definition. -/
theorem WellFormed.valueTable_id (h : WellFormed program function)
    (he : (d, location) ∈ function.located) : function.valueTable[d.id]? = some ⟨d.ty, location⟩ :=
  valueTable_getElem?.mpr ⟨d, h.located_id he, rfl⟩

/-- The definition behind a table entry. -/
theorem WellFormed.exists_definition (h : WellFormed program function) {id : ℕ} {info : ValueInfo}
    (hi : function.valueTable[id]? = some info) :
    ∃ d, (d, info.location) ∈ function.located ∧ d.id = id ∧ d.ty = info.ty := by
  obtain ⟨d, hd, hty⟩ := valueTable_getElem?.mp hi
  exact ⟨d, mem_of_getElem? hd, (h.dense id _ hd).1, hty⟩

theorem WellFormed.declaredType (h : WellFormed program function) {id : ℕ} {info : ValueInfo}
    (hi : function.valueTable[id]? = some info) : function.declaredType id = some info.ty := by
  obtain ⟨d, hmem, rfl, hty⟩ := h.exists_definition hi
  unfold Function.declaredType
  rw [Function.definitions_eq]
  have hfind : ((function.located.map Prod.fst).find? fun e => e.id = d.id) = some d := by
    cases hf : (function.located.map Prod.fst).find? fun e => e.id = d.id with
    | none =>
      have := find?_eq_none.mp hf d (mem_map.mpr ⟨_, hmem, rfl⟩)
      simp at this
    | some e =>
      have hid : e.id = d.id := by simpa using find?_some hf
      obtain ⟨⟨e', location⟩, hemem, rfl⟩ := mem_map.mp (mem_of_find?_eq_some hf)
      have h1 := h.located_id hemem
      rw [hid, h.located_id hmem] at h1
      simp only [Option.some.injEq, Prod.mk.injEq] at h1
      rw [h1.1]
  rw [hfind, Option.map_some, hty]

/-! ### Environments -/

/-- Every available value is bound and carries its declared type. -/
def EnvOk (function : Function) (dom : ℕ → ℕ → Prop) (env : Env) (block position : ℕ) : Prop :=
  ∀ id info, function.valueTable[id]? = some info → Available dom info block position →
    ∃ value, env id = some value ∧ value.ty = info.ty

variable {position b : ℕ}

theorem EnvOk.readOperand (h : WellFormed program function) {dom : ℕ → ℕ → Prop} {env : Env}
    {block : ℕ} (henv : EnvOk function dom env block position) {id : ℕ} {ty : IrType}
    (hty : typeOf function.valueTable id = some ty)
    (ha : OperandsAvailable dom function.valueTable block position [id]) :
    ∃ value, readOperand function env id = some value ∧ value.ty = ty := by
  obtain ⟨info, hinfo, rfl⟩ := Option.map_eq_some_iff.mp hty
  obtain ⟨value, hvalue, hvty⟩ := henv id info hinfo (ha id (by simp) info hinfo)
  refine ⟨value, ?_, hvty⟩
  simp [ControlFlow.readOperand, hvalue, h.declaredType hinfo, hvty]

theorem EnvOk.readOperands (h : WellFormed program function) {dom : ℕ → ℕ → Prop} {env : Env}
    {block : ℕ} (henv : EnvOk function dom env block position)
    {tys : List IrType} (hty : ids.map (typeOf function.valueTable) = tys.map some)
    (ha : OperandsAvailable dom function.valueTable block position ids) :
    ∃ values, readOperands function env ids = some values ∧ values.map Value.ty = tys := by
  induction ids generalizing tys with
  | nil =>
    obtain rfl : tys = [] := by simpa using hty.symm
    exact ⟨[], rfl, rfl⟩
  | cons id ids ih =>
    cases tys with
    | nil => simp at hty
    | cons ty tys =>
      simp only [map_cons, List.cons.injEq] at hty
      obtain ⟨value, hvalue, hvty⟩ := henv.readOperand h hty.1 fun x hx => ha x (by simp_all)
      obtain ⟨values, hvalues, hvtys⟩ := ih hty.2 fun x hx => ha x (by simp_all)
      exact ⟨value :: values, by simp [ControlFlow.readOperands, hvalue, hvalues],
        by simp [hvty, hvtys]⟩

theorem bindAll_apply (bindings : List (ℕ × Value)) (env : Env) (id : ℕ) :
    (id ∉ bindings.map Prod.fst ∧ env.bindAll bindings id = env id)
      ∨ ∃ value, (id, value) ∈ bindings ∧ env.bindAll bindings id = some value := by
  induction bindings generalizing env with
  | nil => exact .inl ⟨by simp, rfl⟩
  | cons b bindings ih =>
    obtain ⟨key, value⟩ := b
    rcases ih (Function.update env key (some value)) with ⟨hnot, h⟩ | ⟨v, hv, h⟩
    · by_cases hk : id = key
      · subst hk
        exact .inr ⟨value, by simp, by simp [Env.bindAll, h]⟩
      · exact .inl ⟨by simpa [hk] using hnot, by simp [Env.bindAll, h, hk]⟩
    · exact .inr ⟨v, by simp [hv], by simpa [Env.bindAll] using h⟩

variable {values : List Value}

theorem exists_of_mem_zip (hty : values.map Value.ty = parameters.map ValueDefinition.ty) {id : ℕ}
    {value : Value} (h : (id, value) ∈ (parameters.map ValueDefinition.id).zip values) :
    ∃ d ∈ parameters, d.id = id ∧ d.ty = value.ty := by
  obtain ⟨i, hi⟩ := mem_iff_getElem?.mp h
  rw [getElem?_zip_eq_some, getElem?_map] at hi
  obtain ⟨d, hd, rfl⟩ := Option.map_eq_some_iff.mp hi.1
  have := congrArg (fun l => l[i]?) hty
  simp only [getElem?_map, hi.2, hd, Option.map_some, Option.some.injEq] at this
  exact ⟨d, mem_of_getElem? hd, rfl, this.symm⟩

theorem map_fst_zip_of_types (hty : values.map Value.ty = parameters.map ValueDefinition.ty) :
    ((parameters.map ValueDefinition.id).zip values).map Prod.fst
      = parameters.map ValueDefinition.id := by
  have hlen : values.length = parameters.length := by simpa using congrArg List.length hty
  exact map_fst_zip (by simp [hlen])

section

variable (h : WellFormed program function)

include h

/-- Binding the parameters of one definition site: the values defined there are bound with their
types, the others are untouched. -/
theorem bindParameters_spec (env : Env)
    (hloc : ∀ d, d ∈ parameters ↔ (d, location) ∈ function.located)
    (hty : values.map Value.ty = parameters.map ValueDefinition.ty) :
    ∃ env', bindParameters parameters values env = some env' ∧
      ∀ id info, function.valueTable[id]? = some info →
        if info.location = location then ∃ value, env' id = some value ∧ value.ty = info.ty
        else env' id = env id := by
  refine ⟨_, if_pos hty, fun id info hinfo => ?_⟩
  obtain ⟨d, hmem, rfl, hdty⟩ := h.exists_definition hinfo
  rcases bindAll_apply ((parameters.map ValueDefinition.id).zip values) env d.id with
    ⟨hnot, heq⟩ | ⟨value, hv, heq⟩
  · rw [map_fst_zip_of_types hty] at hnot
    rw [if_neg, heq]
    rintro rfl
    exact hnot (mem_map.mpr ⟨d, (hloc d).mpr hmem, rfl⟩)
  · obtain ⟨e, he, hid, hety⟩ := exists_of_mem_zip hty hv
    -- the parameter that was bound is the definition behind `id`
    have h1 := h.valueTable_id ((hloc e).mp he)
    rw [hid, hinfo, Option.some.injEq] at h1
    subst h1
    rw [if_pos rfl]
    exact ⟨value, heq, hety.symm⟩

variable {dom : ℕ → ℕ → Prop} {block : Block}

/-- The environment of a fresh activation. -/
theorem EnvOk.enter (ha : Availability function dom) {arguments : List Value}
    (hty : arguments.map Value.ty = function.parameters.map ValueDefinition.ty) :
    ∃ env, bindParameters function.parameters arguments (fun _ => none) = some env
      ∧ EnvOk function dom env 0 0 := by
  have hloc : ∀ d, d ∈ function.parameters ↔
      (d, DefinitionLocation.parameter) ∈ function.located := fun d => by rw [mem_located]
  obtain ⟨env, hbind, hspec⟩ := bindParameters_spec h (fun _ => none) hloc hty
  refine ⟨env, hbind, fun id info hinfo hav => ?_⟩
  have := hspec id info hinfo
  obtain ⟨d, hmem, -, -⟩ := h.exists_definition hinfo
  rw [mem_located] at hmem
  unfold Available at hav
  cases hl : info.location with
  | parameter => simpa [hl] using this
  | blockParameter b =>
    simp only [hl] at hmem hav
    obtain ⟨block, hb, hd⟩ := hmem
    obtain rfl := ha.entry b (List.getElem?_eq_some_iff.mp hb).1 hav
    rw [h.entry_parameters block hb] at hd
    exact absurd hd (not_mem_nil)
  | instruction b k =>
    simp only [hl] at hmem hav
    obtain ⟨block, i, hb, -, -⟩ := hmem
    split at hav
    · omega
    · exact absurd (ha.entry b (List.getElem?_eq_some_iff.mp hb).1 hav) ‹_›

variable {env : Env}

/-- The environment after an instruction. -/
theorem EnvOk.define {k : ℕ} {i : Instruction} (hb : function.blocks[b]? = some block)
    (hi : block.instructions[k]? = some i) (henv : EnvOk function dom env b k) {value : Value}
    (hty : value.ty = i.result.ty) :
    EnvOk function dom (Function.update env i.result.id (some value)) b (k + 1) := by
  have hmem : (i.result, DefinitionLocation.instruction b k) ∈ function.located :=
    mem_located.mpr ⟨block, i, hb, hi, rfl⟩
  intro id info hinfo hav
  by_cases hid : id = i.result.id
  · subst hid
    have := h.valueTable_id hmem
    rw [hinfo, Option.some.injEq] at this
    subst this
    exact ⟨value, by simp, hty⟩
  · rw [Function.update_of_ne hid]
    refine henv id info hinfo ?_
    -- the only definition between the two positions is the one just made
    unfold Available at hav ⊢
    cases hl : info.location with
    | parameter => trivial
    | blockParameter d => simpa [hl] using hav
    | instruction d p =>
      simp only [hl] at hav ⊢
      split at hav
      · next hd =>
        subst hd
        rw [if_pos rfl]
        rcases Nat.lt_succ_iff_lt_or_eq.mp hav with hlt | rfl
        · exact hlt
        · obtain ⟨e, hmem', rfl, -⟩ := h.exists_definition hinfo
          rw [hl, mem_located] at hmem'
          obtain ⟨block', i', hb', hi', rfl⟩ := hmem'
          rw [hb, Option.some.injEq] at hb'
          subst hb'
          rw [hi, Option.some.injEq] at hi'
          subst hi'
          exact absurd rfl hid
      · next hd => rwa [if_neg hd]

/-- The environment after an edge. -/
theorem EnvOk.takeEdge (ha : Availability function dom) (hb : function.blocks[b]? = some block)
    (henv : EnvOk function dom env b block.instructions.length)
    {arguments : List ℕ} (he : ⟨b, target, arguments⟩ ∈ function.edges) {targetBlock : Block}
    (ht : function.blocks[target]? = some targetBlock)
    (hty : values.map Value.ty = targetBlock.parameters.map ValueDefinition.ty) :
    ∃ env', bindParameters targetBlock.parameters values env = some env'
      ∧ EnvOk function dom env' target 0 := by
  have hloc : ∀ d, d ∈ targetBlock.parameters ↔
      (d, DefinitionLocation.blockParameter target) ∈ function.located := by
    intro d
    rw [mem_located]
    simp [ht]
  obtain ⟨env', hbind, hspec⟩ := bindParameters_spec h env hloc hty
  refine ⟨env', hbind, fun id info hinfo hav => ?_⟩
  have hcase := hspec id info hinfo
  split at hcase
  · exact hcase
  next hother =>
  rw [hcase]
  refine henv id info hinfo ?_
  obtain ⟨d, hmem, -, -⟩ := h.exists_definition hinfo
  rw [mem_located] at hmem
  unfold Available at hav ⊢
  cases hl : info.location with
  | parameter => trivial
  | blockParameter c =>
    simp only [hl] at hmem hav hother ⊢
    obtain ⟨cblock, hc, -⟩ := hmem
    exact ha.edge _ he c (List.getElem?_eq_some_iff.mp hc).1 (fun hct => hother (by rw [hct])) hav
  | instruction c p =>
    simp only [hl] at hmem hav ⊢
    obtain ⟨cblock, i, hc, hi, -⟩ := hmem
    split at hav
    · omega
    next hct =>
    have hsource := ha.edge _ he c (List.getElem?_eq_some_iff.mp hc).1 hct hav
    split
    · next hcb =>
      subst hcb
      rw [hb, Option.some.injEq] at hc
      subst hc
      exact (List.getElem?_eq_some_iff.mp hi).1
    · exact hsource

end

/-! ### Operations -/

/-- Typed operations are defined on values of their operand types. -/
theorem OperationTyped.eval {kind : InstructionKind} {tys : List IrType} {ty : IrType}
    (h : OperationTyped kind tys ty) (hunit : ∀ t ∈ tys, t ≠ .unit)
    (hv : values.map Value.ty = tys) :
    ∃ value, evalOperation kind values = some value ∧ value.ty = ty := by
  have two : ∀ {s t : IrType}, values.map Value.ty = [s, t] →
      ∃ a b, values = [a, b] ∧ a.ty = s ∧ b.ty = t := by
    intro s t hst
    match values, hst with
    | [a, b], hst =>
      simp only [map_cons, map_nil, List.cons.injEq, and_true] at hst
      exact ⟨a, b, rfl, hst.1, hst.2⟩
  have int : ∀ {a : Value}, a.ty = .i32 → ∃ n, a = .i32 n := by
    rintro (_ | n) ha
    · cases ha
    · exact ⟨n, rfl⟩
  have bool : ∀ {a : Value}, a.ty = .bool → ∃ n, a = .bool n := by
    rintro (n | _) ha
    · exact ⟨n, rfl⟩
    · cases ha
  cases h with
  | boolLiteral value | i32Literal value =>
    obtain rfl : values = [] := by simpa using hv
    exact ⟨_, rfl, rfl⟩
  | i32Neg operand =>
    obtain ⟨a, rfl, ha⟩ : ∃ a, values = [a] ∧ a.ty = .i32 := by simpa [map_eq_cons_iff] using hv
    obtain ⟨n, rfl⟩ := int ha
    exact ⟨_, rfl, rfl⟩
  | i32Add lhs rhs | i32Sub lhs rhs | i32Mul lhs rhs | i32LtS lhs rhs | i32LeS lhs rhs
  | i32GtS lhs rhs | i32GeS lhs rhs =>
    obtain ⟨a, b, rfl, ha, hb⟩ := two hv
    obtain ⟨m, rfl⟩ := int ha
    obtain ⟨n, rfl⟩ := int hb
    exact ⟨_, rfl, rfl⟩
  | eq lhs rhs t | ne lhs rhs t =>
    obtain ⟨a, b, rfl, ha, hb⟩ := two hv
    cases t with
    | unit => exact absurd rfl (hunit .unit (by simp))
    | bool =>
      obtain ⟨m, rfl⟩ := bool ha
      obtain ⟨n, rfl⟩ := bool hb
      exact ⟨_, rfl, rfl⟩
    | i32 =>
      obtain ⟨m, rfl⟩ := int ha
      obtain ⟨n, rfl⟩ := int hb
      exact ⟨_, rfl, rfl⟩

theorem WellFormed.operand_ne_unit (h : WellFormed program function)
    {tys : List IrType} (hty : ids.map (typeOf function.valueTable) = tys.map some) :
    ∀ t ∈ tys, t ≠ .unit := by
  intro t ht
  have : some t ∈ ids.map (typeOf function.valueTable) := by
    rw [hty]
    exact mem_map_of_mem ht
  obtain ⟨id, -, hid⟩ := mem_map.mp this
  obtain ⟨info, hinfo, rfl⟩ := Option.map_eq_some_iff.mp hid
  obtain ⟨d, hd, hdty⟩ := valueTable_getElem?.mp hinfo
  rw [← hdty]
  exact (h.dense id _ hd).2

/-! ### Frames -/

/-- The activation of a well-formed function whose environment is in order. -/
structure FrameOk (program : Program) (frame : Frame) (function : Function) (block : Block)
    (dom : ℕ → ℕ → Prop) : Prop where
  function_eq : program.function? frame.function = some function
  block_eq : function.blocks[frame.block]? = some block
  position_le : frame.position ≤ block.instructions.length
  available : Availability function dom
  env : EnvOk function dom frame.env frame.block frame.position

/-- The frame waits at a call of `callee`. -/
def AtCall (program : Program) (frame : Frame) (callee : FunctionId) : Prop :=
  ∃ function block dom i arguments, FrameOk program frame function block dom
    ∧ block.instructions[frame.position]? = some i ∧ i.kind = .directCall callee arguments

/-- Every waiting frame stands at a call of the function above it. -/
def StackOk (program : Program) : FunctionId → List Frame → Prop
  | _, [] => True
  | callee, caller :: rest => AtCall program caller callee ∧ StackOk program caller.function rest

def bottom : FunctionId → List Frame → FunctionId
  | id, [] => id
  | _, caller :: rest => bottom caller.function rest

/-- The invariant of a run of `function`. -/
def StateOk (program : Program) (id : FunctionId) (result : IrType) : State → Prop
  | .running frame callers =>
    (∃ function block dom, FrameOk program frame function block dom)
      ∧ StackOk program frame.function callers ∧ bottom frame.function callers = id
  | .halted value => value.ty = result

theorem FrameOk.enter (facts : VerifiedFacts program) {id : FunctionId}
    (hf : program.function? id = some function) {arguments : List Value}
    (hty : arguments.map Value.ty = function.parameters.map ValueDefinition.ty) :
    ∃ frame block dom, enterFunction program id arguments = some frame ∧ frame.function = id
      ∧ FrameOk program frame function block dom := by
  have h := facts.wellFormed id function hf
  obtain ⟨dom, ha⟩ := h.available
  obtain ⟨env, hbind, henv⟩ := EnvOk.enter h ha hty
  have hpos : 0 < function.blocks.length := length_pos_iff.mpr h.blocks_ne
  refine ⟨⟨id, 0, 0, env⟩, function.blocks[0], dom, ?_, rfl, hf, getElem?_eq_getElem hpos,
    Nat.zero_le _, ha, henv⟩
  simp [enterFunction, hf, hbind]

theorem FrameOk.define {frame : Frame} {block : Block} {dom : ℕ → ℕ → Prop}
    (facts : VerifiedFacts program) (h : FrameOk program frame function block dom)
    {i : Instruction} (hi : block.instructions[frame.position]? = some i) {value : Value}
    (hty : value.ty = i.result.ty) :
    ∃ next, frame.define i.result value = some next ∧ next.function = frame.function
      ∧ FrameOk program next function block dom := by
  have hwf := facts.wellFormed _ _ h.function_eq
  refine ⟨_, if_pos hty, rfl, h.function_eq, h.block_eq, ?_, h.available,
    h.env.define hwf h.block_eq hi hty⟩
  exact (List.getElem?_eq_some_iff.mp hi).1

theorem FrameOk.takeEdge {frame : Frame} {block : Block} {dom : ℕ → ℕ → Prop}
    (facts : VerifiedFacts program) (h : FrameOk program frame function block dom)
    (hend : frame.position = block.instructions.length) {arguments : List ℕ}
    (he : ⟨frame.block, target, arguments⟩ ∈ function.edges)
    (htyped : EdgeTyped function function.valueTable target arguments)
    (ha : OperandsAvailable dom function.valueTable frame.block frame.position arguments) :
    ∃ next block', frame.takeEdge function target arguments = some next
      ∧ next.function = frame.function ∧ FrameOk program next function block' dom := by
  have hwf := facts.wellFormed _ _ h.function_eq
  obtain ⟨hne, targetBlock, ht, hargs⟩ := htyped
  obtain ⟨values, hvalues, hvty⟩ := h.env.readOperands hwf hargs ha
  obtain ⟨env', hbind, henv'⟩ :=
    EnvOk.takeEdge hwf h.available h.block_eq (hend ▸ h.env) he ht hvty
  refine ⟨{ frame with block := target, position := 0, env := env' }, targetBlock, ?_, rfl,
    h.function_eq, ht, Nat.zero_le _, h.available, henv'⟩
  simp [Frame.takeEdge, hvalues, ht, hne, hbind]

/-- The result of a call fits the frame that waits for it. -/
theorem AtCall.deliver (facts : VerifiedFacts program) {frame : Frame} {callee : FunctionId}
    {target : Function} (ht : program.function? callee = some target)
    (h : AtCall program frame callee) {value : Value} (hty : value.ty = target.result) :
    ∃ next function block dom, frame.deliver program value = some next
      ∧ next.function = frame.function ∧ FrameOk program next function block dom := by
  obtain ⟨function, block, dom, i, arguments, hok, hi, hk⟩ := h
  have hwf := facts.wellFormed _ _ hok.function_eq
  have hres : i.result.ty = target.result := by
    have := hwf.instruction _ _ hok.block_eq _ _ hi
    unfold InstructionTyped at this
    rw [hk] at this
    obtain ⟨parameters, hsig, -⟩ := this
    obtain ⟨target', ht', hsig'⟩ := calleeSignature_collect.mp hsig
    rw [ht, Option.some.injEq] at ht'
    subst ht'
    exact (congrArg Prod.snd hsig').symm
  obtain ⟨next, hnext, hfun, hnextok⟩ := hok.define facts hi (hty.trans hres.symm)
  refine ⟨next, function, block, dom, ?_, hfun, hnextok⟩
  simp [Frame.deliver, Frame.instruction?, hok.function_eq, hok.block_eq, hi, hnext]

/-! ### Steps -/

section Step

variable {frame : Frame} {callers : List Frame} {block : Block} {dom : ℕ → ℕ → Prop}
  {id : FunctionId} {result : IrType}

section

variable (facts : VerifiedFacts program) (hok : FrameOk program frame function block dom)
  (hstack : StackOk program frame.function callers) (hbot : bottom frame.function callers = id)

include facts hok hstack hbot

theorem stepInstruction_ok {i : Instruction} (hi : block.instructions[frame.position]? = some i) :
    ∃ s, stepInstruction program function i frame callers = some s
      ∧ StateOk program id result s := by
  have hwf := facts.wellFormed _ _ hok.function_eq
  have htyped := hwf.instruction _ _ hok.block_eq _ _ hi
  have hav := hok.available.instruction _ _ hok.block_eq _ _ hi
  unfold InstructionTyped at htyped
  unfold stepInstruction
  cases hk : i.kind with
  | directCall callee arguments =>
    rw [hk] at htyped hav
    obtain ⟨parameters, hsig, hargs⟩ := htyped
    obtain ⟨target, ht, hsig'⟩ := calleeSignature_collect.mp hsig
    obtain ⟨values, hvalues, hvty⟩ := hok.env.readOperands hwf hargs hav
    have hptys : values.map Value.ty = target.parameters.map ValueDefinition.ty := by
      rw [hvty]
      exact (congrArg Prod.fst hsig').symm
    obtain ⟨entered, eblock, edom, henter, hfun, heok⟩ := FrameOk.enter facts ht hptys
    refine ⟨.running entered (frame :: callers), by simp [instructionOperands, hvalues, henter],
      ⟨target, eblock, edom, heok⟩, ⟨?_, hstack⟩, hbot⟩
    rw [hfun]
    exact ⟨function, block, dom, i, arguments, hok, hi, hk⟩
  | _ =>
    rw [hk] at htyped hav
    obtain ⟨tys, hop, hargs⟩ := htyped
    obtain ⟨values, hvalues, hvty⟩ := hok.env.readOperands hwf hargs hav
    obtain ⟨value, heval, hty⟩ := hop.eval (hwf.operand_ne_unit hargs) hvty
    obtain ⟨next, hnext, hfun, hnextok⟩ := hok.define facts hi hty
    refine ⟨.running next callers, by simp [hvalues, heval, hnext],
      ⟨function, block, dom, hnextok⟩, by rwa [hfun], by rwa [hfun]⟩

theorem stepTerminator_ok (hres : ∀ root, program.function? id = some root → root.result = result)
    (hend : frame.position = block.instructions.length) {t : SpannedTerminator}
    (ht : block.terminators = [t]) (htyped : TerminatorTyped function function.valueTable t.kind) :
    ∃ s, stepTerminator program function t.kind frame callers = some s
      ∧ StateOk program id result s := by
  have hwf := facts.wellFormed _ _ hok.function_eq
  have hav := hok.available.terminator _ _ hok.block_eq _ ht
  rw [← hend] at hav
  have edge : ∀ {target : ℕ} {arguments : List ℕ},
      ⟨frame.block, target, arguments⟩ ∈ edgesOf frame.block t.kind →
      EdgeTyped function function.valueTable target arguments →
      OperandsAvailable dom function.valueTable frame.block frame.position arguments →
      ∃ s, (frame.takeEdge function target arguments).map (fun next => .running next callers)
          = some s ∧ StateOk program id result s := by
    intro target arguments hmem hedge hargs
    obtain ⟨next, block', hnext, hfun, hnextok⟩ :=
      hok.takeEdge facts hend (mem_edges hok.block_eq ht hmem) hedge hargs
    exact ⟨.running next callers, by simp [hnext], ⟨function, block', dom, hnextok⟩,
      by rwa [hfun], by rwa [hfun]⟩
  unfold stepTerminator
  cases hk : t.kind with
  | «return» x =>
    rw [hk] at htyped hav
    obtain ⟨value, hvalue, hty⟩ := hok.env.readOperand hwf htyped hav
    cases callers with
    | nil =>
      refine ⟨.halted value, by simp [hvalue, hty], ?_⟩
      exact hty.trans (hres function (hbot ▸ hok.function_eq))
    | cons caller rest =>
      obtain ⟨next, cfunction, cblock, cdom, hnext, hfun, hnextok⟩ :=
        hstack.1.deliver facts hok.function_eq hty
      refine ⟨.running next rest, by simp [hvalue, hty, hnext],
        ⟨cfunction, cblock, cdom, hnextok⟩, ?_, ?_⟩
      · rw [hfun]
        exact hstack.2
      · rw [hfun]
        exact hbot
  | jump target arguments =>
    rw [hk] at htyped hav
    exact edge (by simp [hk, edgesOf]) htyped hav
  | branch condition trueTarget trueArguments falseTarget falseArguments =>
    rw [hk] at htyped hav
    obtain ⟨hcond, htrue, hfalse⟩ := htyped
    obtain ⟨value, hvalue, hty⟩ := hok.env.readOperand hwf hcond
      fun x hx => hav x (by simp_all [terminatorOperands])
    obtain (_ | _) | _ := value
    · simp only [hvalue, Option.bind_some]
      exact edge (by simp [hk, edgesOf]) hfalse fun x hx => hav x (by simp [terminatorOperands, hx])
    · simp only [hvalue, Option.bind_some]
      exact edge (by simp [hk, edgesOf]) htrue fun x hx => hav x (by simp [terminatorOperands, hx])
    · cases hty

end

/-- A running state with the invariant steps to a state with the invariant. -/
theorem step_ok (facts : VerifiedFacts program)
    (hres : ∀ root, program.function? id = some root → root.result = result)
    (h : StateOk program id result (.running frame callers)) :
    ∃ s, step program (.running frame callers) = some s ∧ StateOk program id result s := by
  obtain ⟨⟨function, block, dom, hok⟩, hstack, hbot⟩ := h
  have hwf := facts.wellFormed _ _ hok.function_eq
  simp only [step, hok.function_eq, hok.block_eq, Option.bind_some]
  cases hi : block.instructions[frame.position]? with
  | some i => exact stepInstruction_ok facts hok hstack hbot hi
  | none =>
    have hend : frame.position = block.instructions.length :=
      le_antisymm hok.position_le (getElem?_eq_none_iff.mp hi)
    obtain ⟨t, ht, htyped⟩ := hwf.terminator _ _ hok.block_eq
    rw [ht]
    exact stepTerminator_ok facts hok hstack hbot hres hend ht htyped

end Step

/-! ### Runs -/

/-- Nested calls are ranked, so their number is bounded by the rank of the running function. -/
theorem StackOk.length_lt {rank : FunctionId → ℕ} (hrank : CallOrder program rank)
    {callers : List Frame} : ∀ {callee : FunctionId} {target : Function},
      program.function? callee = some target → StackOk program callee callers →
      callers.length < rank callee := by
  induction callers with
  | nil => exact fun ht _ => hrank.pos _ _ ht
  | cons caller rest ih =>
    rintro callee target ht ⟨⟨function, block, dom, i, arguments, hok, hi, hk⟩, hrest⟩
    have hlt := ih hok.function_eq hrest
    have hcalls : function.Calls callee :=
      ⟨block, mem_of_getElem? hok.block_eq, i, mem_of_getElem? hi, arguments, hk⟩
    have := hrank.lt _ _ hok.function_eq callee hcalls (by simp [ht])
    simp only [length_cons]
    omega

variable {s : State}

theorem StateOk.depth_le (facts : VerifiedFacts program) {id : FunctionId} {result : IrType}
    (h : StateOk program id result s) : s.depth ≤ maxStaticCallDepth := by
  cases s with
  | halted value => exact Nat.zero_le _
  | running frame callers =>
    obtain ⟨⟨function, block, dom, hok⟩, hstack, -⟩ := h
    obtain ⟨rank, hrank⟩ := facts.callOrder
    exact (hstack.length_lt hrank hok.function_eq).trans_le (hrank.le _ _ hok.function_eq)

theorem stateOk_of_reachable (facts : VerifiedFacts program) {id : FunctionId} {result : IrType}
    (hres : ∀ root, program.function? id = some root → root.result = result) {s' : State}
    (hs : StateOk program id result s) (h : Reachable program s s') :
    StateOk program id result s' := by
  induction h with
  | refl => exact hs
  | @tail a b _ hstep ih =>
    cases a with
    | halted value => cases hstep
    | running frame callers =>
      obtain ⟨b', hb', hok⟩ := step_ok facts hres ih
      rw [hstep, Option.some.injEq] at hb'
      exact hb' ▸ hok

/-- **Soundness of `verify`.** In an accepted program every function can be entered on a
well-typed argument list, and no state of the run is stuck: running states step, a final value has
the result type, and at most `maxStaticCallDepth` functions are active. -/
theorem verify_sound {sources : SourceMap} {expectedEntry : FileId} {verified : VerifiedProgram}
    (hverify : verify program sources expectedEntry = .ok verified) {id : FunctionId}
    (hf : program.function? id = some function) {arguments : List Value}
    (hty : arguments.map Value.ty = function.parameters.map ValueDefinition.ty) :
    ∃ frame, enterFunction program id arguments = some frame ∧
      ∀ s, Reachable program (.running frame []) s →
        s.depth ≤ maxStaticCallDepth ∧
          match s with
          | .running _ _ => (step program s).isSome
          | .halted value => value.ty = function.result := by
  have facts := verifiedFacts_of_verify hverify
  have hres : ∀ root, program.function? id = some root → root.result = function.result := by
    intro root hroot
    rw [hf, Option.some.injEq] at hroot
    rw [hroot]
  obtain ⟨frame, block, dom, henter, hfun, hok⟩ := FrameOk.enter facts hf hty
  refine ⟨frame, henter, fun s hs => ?_⟩
  have hstart : StateOk program id function.result (.running frame []) :=
    ⟨⟨function, block, dom, hok⟩, trivial, hfun⟩
  have hstate := stateOk_of_reachable facts hres hstart hs
  refine ⟨hstate.depth_le facts, ?_⟩
  cases s with
  | halted value => exact hstate
  | running frame callers =>
    obtain ⟨s', hs', -⟩ := step_ok facts hres hstate
    simp [hs']

/-! ### An accepted program with a loop and a call -/

/-- One source file of four bytes. -/
def sampleSources : SourceMap where
  id := 7
  files := [⟨⟨7, 0⟩, "main.zr", "demo"⟩]
  files_le := by decide
  id_eq := by
    intro i f h
    match i, h with
    | 0, h => cases h; rfl
  text_le := by decide

def sampleSpan : Span := ⟨⟨7, 0⟩, 0, 4⟩

/-- Counts a positive argument down to zero and hands the rest to `identity`. -/
def countdownMain : Function where
  id := ⟨0, 0⟩
  entryExport := none
  span := sampleSpan
  parameters := [⟨0, .i32, sampleSpan⟩]
  result := .i32
  blocks := [
    ⟨0, [], [], [⟨sampleSpan, .jump 1 [0]⟩]⟩,
    ⟨1, [⟨1, .i32, sampleSpan⟩],
      [⟨⟨2, .i32, sampleSpan⟩, .i32Literal 0⟩, ⟨⟨3, .bool, sampleSpan⟩, .i32GtS 1 2⟩],
      [⟨sampleSpan, .branch 3 2 [] 3 []⟩]⟩,
    ⟨2, [],
      [⟨⟨4, .i32, sampleSpan⟩, .i32Literal 1⟩, ⟨⟨5, .i32, sampleSpan⟩, .i32Sub 1 4⟩],
      [⟨sampleSpan, .jump 1 [5]⟩]⟩,
    ⟨3, [], [⟨⟨6, .i32, sampleSpan⟩, .directCall ⟨0, 1⟩ [1]⟩], [⟨sampleSpan, .return 6⟩]⟩]

def identity : Function where
  id := ⟨0, 1⟩
  entryExport := none
  span := sampleSpan
  parameters := [⟨0, .i32, sampleSpan⟩]
  result := .i32
  blocks := [⟨0, [], [], [⟨sampleSpan, .return 0⟩]⟩]

def countdown : Program := ⟨0, [⟨0, ⟨7, 0⟩, [countdownMain, identity]⟩]⟩

theorem verify_countdown : verify countdown sampleSources ⟨7, 0⟩ = .ok ⟨countdown, []⟩ := rfl

theorem verify_sound_countdown :
    ∃ frame, enterFunction countdown ⟨0, 0⟩ [.i32 2] = some frame ∧
      ∀ s, Reachable countdown (.running frame []) s →
        s.depth ≤ maxStaticCallDepth ∧
          match s with
          | .running _ _ => (step countdown s).isSome
          | .halted value => value.ty = countdownMain.result := by
  have hf : countdown.function? ⟨0, 0⟩ = some countdownMain := rfl
  exact verify_sound verify_countdown hf rfl

end Zryna.Ir.ControlFlow
