import Zryna.Ir.ControlFlow.Intervals
import Zryna.Ir.ControlFlow.Machine
import Zryna.Ir.ControlFlow.Verify

/-!
# What a clean verifier run says

Each check of the verifier up to the body walk is read back as the condition it enforces: values
are numbered densely (`clean_defineValues`), every operand has the type its use demands
(`clean_verifyInstruction`, `clean_verifyTerminator`), and every block has one typed terminator
(`clean_verifyBlock`).
-/

namespace Zryna.Ir.ControlFlow

open Report List

/-! ### The value table -/

/-- Every value definition of a function with its location, in numbering order. -/
def Function.located (function : Function) : List (ValueDefinition × DefinitionLocation) :=
  function.parameters.map (fun d => (d, .parameter))
    ++ function.blocks.zipIdx.flatMap fun (block, index) =>
      block.parameters.map (fun d => (d, .blockParameter index))
        ++ block.instructions.zipIdx.map fun (instruction, position) =>
          (instruction.result, .instruction index position)

/-- The table entry of a located definition. -/
def valueInfo (entry : ValueDefinition × DefinitionLocation) : ValueInfo := ⟨entry.1.ty, entry.2⟩

def Function.valueTable (function : Function) : List ValueInfo := function.located.map valueInfo

theorem map_fst_zipIdx_map {α β : Type} (xs : List α) (k : ℕ) (f : α → β) :
    (xs.zipIdx k).map (fun x => f x.1) = xs.map f := by
  induction xs generalizing k with
  | nil => rfl
  | cons x xs ih => simp [zipIdx_cons, ih]

theorem map_fst_blocks (blocks : List Block) (k : ℕ) :
    ((blocks.zipIdx k).flatMap fun (block, index) =>
      block.parameters.map (fun d => (d, DefinitionLocation.blockParameter index))
        ++ block.instructions.zipIdx.map fun (instruction, position) =>
          (instruction.result, DefinitionLocation.instruction index position)).map Prod.fst
      = blocks.flatMap fun block =>
        block.parameters ++ block.instructions.map Instruction.result := by
  induction blocks generalizing k with
  | nil => rfl
  | cons block blocks ih =>
    simp only [zipIdx_cons, flatMap_cons, map_append, ih]
    congr 2
    · simp [Function.comp_def]
    · simp only [map_map, Function.comp_def]
      exact map_fst_zipIdx_map block.instructions 0 Instruction.result

theorem Function.definitions_eq (function : Function) :
    function.definitions = function.located.map Prod.fst := by
  unfold Function.definitions Function.located
  rw [map_append, map_fst_blocks]
  simp [Function.comp_def]

def defineAll (values : List ValueInfo) (entries : List (ValueDefinition × DefinitionLocation)) :
    Check (List ValueInfo) :=
  entries.foldlM (fun values entry => defineValue entry.2 values entry.1) values

section

variable (location : DefinitionLocation) (values : List ValueInfo) (d : ValueDefinition)

theorem value_defineValue :
    (defineValue location values d).value = values ++ [⟨d.ty, location⟩] := rfl

theorem clean_defineValue :
    (defineValue location values d).Clean ↔ d.id = values.length ∧ d.ty ≠ .unit := by
  simp [defineValue, validateType]

end

section

variable (entries : List (ValueDefinition × DefinitionLocation)) (values : List ValueInfo)

@[simp] theorem value_defineAll :
    (defineAll values entries).value = values ++ entries.map valueInfo := by
  induction entries generalizing values with
  | nil => simp [defineAll]
  | cons entry entries ih =>
    have := ih (values ++ [valueInfo entry])
    simp only [defineAll, foldlM_cons, value_bind, value_defineValue] at this ⊢
    rw [show (⟨entry.1.ty, entry.2⟩ : ValueInfo) = valueInfo entry from rfl, this]
    simp

/-- Clean definitions are numbered densely and typed. -/
theorem clean_defineAll :
    (defineAll values entries).Clean ↔ ∀ (i : ℕ) (entry : ValueDefinition × DefinitionLocation),
      entries[i]? = some entry → entry.1.id = values.length + i ∧ entry.1.ty ≠ .unit := by
  induction entries generalizing values with
  | nil => simp [defineAll]
  | cons entry entries ih =>
    have h : (defineAll values (entry :: entries)).Clean
        ↔ (defineValue entry.2 values entry.1).Clean
          ∧ (defineAll (values ++ [valueInfo entry]) entries).Clean := by
      simp only [defineAll, foldlM_cons, clean_bind, value_defineValue]
      rfl
    rw [h, clean_defineValue, ih]
    constructor
    · rintro ⟨h0, hrest⟩ i e hi
      cases i with
      | zero =>
        obtain rfl : entry = e := by simpa using hi
        exact ⟨by simpa using h0.1, h0.2⟩
      | succ i =>
        have := hrest i e (by simpa using hi)
        simp only [length_append, length_cons, length_nil] at this
        exact ⟨by omega, this.2⟩
    · intro h
      refine ⟨by simpa using h 0 entry (by simp), fun i e hi => ?_⟩
      have := h (i + 1) e (by simpa using hi)
      simp only [length_append, length_cons, length_nil]
      exact ⟨by omega, this.2⟩

end

theorem defineAll_append (xs ys : List (ValueDefinition × DefinitionLocation))
    (values : List ValueInfo) :
    defineAll values (xs ++ ys) = defineAll values xs >>= fun values => defineAll values ys := by
  simp [defineAll, foldlM_append]

theorem foldlM_defineValue (location : DefinitionLocation) (ds : List ValueDefinition)
    (values : List ValueInfo) :
    ds.foldlM (defineValue location) values = defineAll values (ds.map fun d => (d, location)) := by
  simp [defineAll, foldlM_map]

theorem foldlM_defineResult (index : ℕ) (xs : List (Instruction × ℕ)) (values : List ValueInfo) :
    xs.foldlM (fun values (instruction, position) =>
        defineValue (.instruction index position) values instruction.result) values
      = defineAll values (xs.map fun (instruction, position) =>
          (instruction.result, .instruction index position)) := by
  simp [defineAll, foldlM_map]

def blockLocated (entry : Block × ℕ) : List (ValueDefinition × DefinitionLocation) :=
  entry.1.parameters.map (fun d => (d, .blockParameter entry.2))
    ++ entry.1.instructions.zipIdx.map fun (instruction, position) =>
      (instruction.result, .instruction entry.2 position)

section

variable (key : FunctionKey)

theorem value_defineBlock (values : List ValueInfo) (entry : Block × ℕ) :
    (defineBlock key values entry).value = values ++ (blockLocated entry).map valueInfo := by
  simp only [defineBlock, foldlM_defineValue, foldlM_defineResult, value_bind, value_defineAll]
  simp [blockLocated]

theorem clean_defineBlock (values : List ValueInfo) (entry : Block × ℕ) :
    (defineBlock key values entry).Clean ↔ entry.1.id = entry.2
      ∧ (entry.2 = 0 → entry.1.parameters = []) ∧ (defineAll values (blockLocated entry)).Clean := by
  simp [defineBlock, foldlM_defineValue, foldlM_defineResult, blockLocated, defineAll_append]

theorem value_foldlM_defineBlock (entries : List (Block × ℕ)) (values : List ValueInfo) :
    (entries.foldlM (defineBlock key) values).value
      = values ++ (entries.flatMap blockLocated).map valueInfo := by
  induction entries generalizing values with
  | nil => simp
  | cons entry entries ih =>
    rw [foldlM_cons, value_bind, ih, value_defineBlock]
    simp

theorem clean_foldlM_defineBlock (entries : List (Block × ℕ)) (values : List ValueInfo) :
    (entries.foldlM (defineBlock key) values).Clean ↔
      (∀ entry ∈ entries, entry.1.id = entry.2 ∧ (entry.2 = 0 → entry.1.parameters = []))
        ∧ (defineAll values (entries.flatMap blockLocated)).Clean := by
  induction entries generalizing values with
  | nil => simp [defineAll]
  | cons entry entries ih =>
    rw [foldlM_cons, clean_bind, clean_defineBlock, ih, value_defineBlock, flatMap_cons,
      defineAll_append, clean_bind, value_defineAll]
    simp only [mem_cons, forall_eq_or_imp]
    tauto

variable (function : Function)

theorem Function.located_eq :
    function.located = function.parameters.map (fun d => (d, .parameter))
      ++ function.blocks.zipIdx.flatMap blockLocated := rfl

@[simp] theorem value_defineValues :
    (defineValues key function).value = function.valueTable := by
  simp only [defineValues, value_bind, foldlM_defineValue, value_foldlM_defineBlock,
    value_defineAll, Function.valueTable, Function.located_eq, map_append, nil_append]

/-- Clean value definitions: dense blocks, an entry block without parameters, dense typed
values. -/
theorem clean_defineValues :
    (defineValues key function).Clean ↔
      (∀ (i : ℕ) (block : Block), function.blocks[i]? = some block →
        block.id = i ∧ (i = 0 → block.parameters = []))
      ∧ ∀ (i : ℕ) (entry : ValueDefinition × DefinitionLocation),
        function.located[i]? = some entry → entry.1.id = i ∧ entry.1.ty ≠ .unit := by
  have hall : (defineAll [] function.located).Clean ↔
      (defineAll [] (function.parameters.map fun d => (d, .parameter))).Clean
        ∧ (defineAll (defineAll [] (function.parameters.map fun d => (d, .parameter))).value
          (function.blocks.zipIdx.flatMap blockLocated)).Clean := by
    rw [Function.located_eq, defineAll_append, clean_bind]
  have hmem : (∀ entry ∈ function.blocks.zipIdx, entry.1.id = entry.2
      ∧ (entry.2 = 0 → entry.1.parameters = [])) ↔
      ∀ (i : ℕ) (block : Block), function.blocks[i]? = some block →
        block.id = i ∧ (i = 0 → block.parameters = []) := by
    constructor
    · intro h i block hi
      exact h (block, i) (mk_mem_zipIdx_iff_getElem?.mpr hi)
    · rintro h ⟨block, i⟩ hi
      exact h i block (mk_mem_zipIdx_iff_getElem?.mp hi)
  simp only [defineValues, clean_bind, foldlM_defineValue, clean_foldlM_defineBlock, hmem]
  rw [← and_assoc, and_comm (a := (defineAll [] _).Clean), and_assoc, ← hall, clean_defineAll]
  simp

end

/-! ### Uses -/

/-- The declared type of an operand in the value table. -/
def typeOf (values : List ValueInfo) (id : ℕ) : Option IrType := (values[id]?).map ValueInfo.ty

/-- An operand defined by an instruction of the same block is defined before the use. -/
def DefinedBefore (values : List ValueInfo) (block position id : ℕ) : Prop :=
  ∀ info, values[id]? = some info → ∀ p, info.location = .instruction block p → p < position

section

variable (id block position : ℕ) (values : List ValueInfo) (span : Span)

@[simp] theorem value_checkedUse :
    (checkedUse id block position values span).value = values[id]? := by
  unfold checkedUse
  split
  · next h => simp [h]
  · next value h =>
    rw [h]
    cases value.location <;> rfl

theorem clean_checkedUse :
    (checkedUse id block position values span).Clean ↔
      (values[id]?).isSome ∧ DefinedBefore values block position id := by
  unfold checkedUse DefinedBefore
  cases h : values[id]? with
  | none => simp
  | some value =>
    cases hl : value.location with
    | parameter => simp [hl]
    | blockParameter b => simp [hl]
    | instruction b p =>
      simp only [hl, clean_bind, clean_pushIf, clean_pure, and_true, Option.isSome_some,
        true_and, Option.some.injEq, forall_eq', DefinitionLocation.instruction.injEq, and_imp,
        not_and, Nat.not_le]
      exact ⟨fun h p' hb hp => hp ▸ h hb, fun h hb => h p hb rfl⟩

end

variable {values : List ValueInfo} {key : FunctionKey} {position : ℕ}

theorem typeOf_eq_some_isSome {id : ℕ} {ty : IrType}
    (h : typeOf values id = some ty) : (values[id]?).isSome := by
  unfold typeOf at h
  cases hv : values[id]? with
  | none => simp [hv] at h
  | some _ => rfl

/-! ### Instructions -/

/-- Operand and result types of the operations other than calls. -/
inductive OperationTyped : InstructionKind → List IrType → IrType → Prop where
  | boolLiteral (value : Bool) : OperationTyped (.boolLiteral value) [] .bool
  | i32Literal (value : I32) : OperationTyped (.i32Literal value) [] .i32
  | i32Neg (operand : ℕ) : OperationTyped (.i32Neg operand) [.i32] .i32
  | i32Add (lhs rhs : ℕ) : OperationTyped (.i32Add lhs rhs) [.i32, .i32] .i32
  | i32Sub (lhs rhs : ℕ) : OperationTyped (.i32Sub lhs rhs) [.i32, .i32] .i32
  | i32Mul (lhs rhs : ℕ) : OperationTyped (.i32Mul lhs rhs) [.i32, .i32] .i32
  | i32LtS (lhs rhs : ℕ) : OperationTyped (.i32LtS lhs rhs) [.i32, .i32] .bool
  | i32LeS (lhs rhs : ℕ) : OperationTyped (.i32LeS lhs rhs) [.i32, .i32] .bool
  | i32GtS (lhs rhs : ℕ) : OperationTyped (.i32GtS lhs rhs) [.i32, .i32] .bool
  | i32GeS (lhs rhs : ℕ) : OperationTyped (.i32GeS lhs rhs) [.i32, .i32] .bool
  | eq (lhs rhs : ℕ) (ty : IrType) : OperationTyped (.eq lhs rhs) [ty, ty] .bool
  | ne (lhs rhs : ℕ) (ty : IrType) : OperationTyped (.ne lhs rhs) [ty, ty] .bool

/-- An instruction whose operands and result have the types its operation demands. -/
def InstructionTyped (values : List ValueInfo) (signatures : Signatures)
    (instruction : Instruction) : Prop :=
  match instruction.kind with
  | .directCall callee arguments =>
    ∃ parameters, calleeSignature signatures callee = some (parameters, instruction.result.ty)
      ∧ arguments.map (typeOf values) = parameters.map some
  | kind =>
    ∃ tys, OperationTyped kind tys instruction.result.ty
      ∧ (instructionOperands kind).map (typeOf values) = tys.map some

theorem operandsValid_iff (block position : ℕ) (values : List ValueInfo) (span : Span)
    (operands : List (ℕ × IrType)) :
    (operandsValid block position values span operands).Clean
        ∧ (operandsValid block position values span operands).value = true ↔
      (∀ x ∈ operands, DefinedBefore values block position x.1)
        ∧ (operands.map Prod.fst).map (typeOf values) = (operands.map Prod.snd).map some := by
  induction operands with
  | nil => simp [operandsValid]
  | cons x operands ih =>
    obtain ⟨operand, expected⟩ := x
    simp only [operandsValid, clean_bind, value_bind, value_checkedUse, clean_checkedUse,
      map_cons, mem_cons, forall_eq_or_imp, List.cons.injEq]
    change (_ ∧ (if typeOf values operand = some expected then _ else _ : Check Bool).Clean)
      ∧ (if typeOf values operand = some expected then _ else _ : Check Bool).value = true ↔ _
    by_cases ht : typeOf values operand = some expected
    · have hs := typeOf_eq_some_isSome ht
      simp only [ht, if_true, hs, true_and]
      rw [and_assoc, ih]
      tauto
    · simp [ht]

theorem clean_expectValues (operands : List (ℕ × IrType)) (result expected : IrType)
    (block position : ℕ) (values : List ValueInfo) (span : Span) :
    (expectValues operands result expected block position values span).Clean ↔
      result = expected ∧ (∀ x ∈ operands, DefinedBefore values block position x.1)
        ∧ (operands.map Prod.fst).map (typeOf values) = (operands.map Prod.snd).map some := by
  rw [← operandsValid_iff block position values span]
  simp only [expectValues, clean_bind, clean_pushIf, not_or, ne_eq, not_not, Bool.not_eq_false]
  tauto

theorem clean_expectEquality (lhs rhs : ℕ) (result : IrType) (block position : ℕ)
    (values : List ValueInfo) (span : Span) :
    (expectEquality lhs rhs result block position values span).Clean ↔
      result = .bool ∧ (∀ x ∈ [lhs, rhs], DefinedBefore values block position x)
        ∧ ∃ ty, [lhs, rhs].map (typeOf values) = [ty, ty].map some := by
  simp only [expectEquality, clean_bind, value_checkedUse, clean_checkedUse, clean_pushIf, not_or,
    ne_eq, not_not]
  change (_ ∧ _) ∧ (_ ∧ _) ∧ _ ∧ typeOf values lhs = typeOf values rhs ↔ _
  constructor
  · rintro ⟨⟨hl, hdl⟩, ⟨hr, hdr⟩, hres, heq⟩
    obtain ⟨info, hinfo⟩ := Option.isSome_iff_exists.mp hl
    have hty : typeOf values lhs = some info.ty := by simp [typeOf, hinfo]
    refine ⟨hres, by simp [hdl, hdr], info.ty, ?_⟩
    simp [hty, ← heq]
  · rintro ⟨hres, hdef, ty, hty⟩
    simp only [map_cons, map_nil, List.cons.injEq, and_true] at hty
    exact ⟨⟨typeOf_eq_some_isSome hty.1, hdef lhs (by simp)⟩,
      ⟨typeOf_eq_some_isSome hty.2, hdef rhs (by simp)⟩, hres, hty.1.trans hty.2.symm⟩

/-- Arguments checked one by one against a list of expected types. -/
theorem arguments_typed_iff (values : List ValueInfo) (arguments : List ℕ)
    (parameters : List IrType) :
    arguments.length = parameters.length
        ∧ (∀ x ∈ arguments.zipIdx, typeOf values x.1 = parameters[x.2]?) ↔
      arguments.map (typeOf values) = parameters.map some := by
  constructor
  · rintro ⟨hlen, h⟩
    apply ext_getElem (by simpa using hlen)
    intro i h1 h2
    simp only [length_map] at h1 h2
    have := h (arguments[i], i) (mk_mem_zipIdx_iff_getElem?.mpr (by simp [h1]))
    simpa [h2] using this
  · intro h
    have hlen : arguments.length = parameters.length := by simpa using congrArg List.length h
    refine ⟨hlen, ?_⟩
    rintro ⟨a, i⟩ hx
    have ha := mk_mem_zipIdx_iff_getElem?.mp hx
    have hi := congrArg (fun l => l[i]?) h
    simp only [getElem?_map, ha, Option.map_some] at hi
    have hip : i < parameters.length := hlen ▸ (List.getElem?_eq_some_iff.mp ha).1
    simpa [hip] using hi

theorem mem_zipIdx_fst {α : Type} {xs : List α} {P : α → Prop} :
    (∀ x ∈ xs.zipIdx, P x.1) ↔ ∀ x ∈ xs, P x := by
  constructor
  · intro h x hx
    obtain ⟨i, hi, rfl⟩ := mem_iff_getElem.mp hx
    exact h (xs[i], i) (mk_mem_zipIdx_iff_getElem?.mpr (by simp [hi]))
  · rintro h ⟨x, i⟩ hx
    exact h x (mem_of_getElem? (mk_mem_zipIdx_iff_getElem?.mp hx))

/-- The argument loop shared by calls and edges. -/
theorem clean_arguments (values : List ValueInfo) (block position : ℕ) (span : Span)
    (arguments : List ℕ) (parameters : List IrType) (d : ℕ → Diagnostic) :
    (arguments.length = parameters.length
      ∧ (forM arguments.zipIdx fun (argument, index) => do
          let actual ← checkedUse argument block position values span
          pushIf (actual.map ValueInfo.ty ≠ parameters[index]?) (d index) : Check PUnit).Clean) ↔
      arguments.map (typeOf values) = parameters.map some
        ∧ ∀ x ∈ arguments, DefinedBefore values block position x := by
  have hdefined : (∀ x ∈ arguments, DefinedBefore values block position x) ↔
      ∀ x ∈ arguments.zipIdx, DefinedBefore values block position x.1 := mem_zipIdx_fst.symm
  rw [← arguments_typed_iff, hdefined]
  simp only [clean_forM, clean_bind, clean_checkedUse, value_checkedUse, clean_pushIf, ne_eq,
    not_not]
  constructor
  · rintro ⟨hlen, h⟩
    exact ⟨⟨hlen, fun x hx => (h x hx).2⟩, fun x hx => (h x hx).1.2⟩
  · rintro ⟨⟨hlen, hty⟩, hdef⟩
    refine ⟨hlen, fun x hx => ⟨⟨?_, hdef x hx⟩, hty x hx⟩⟩
    have hi : x.2 < parameters.length :=
      hlen ▸ (List.getElem?_eq_some_iff.mp (mk_mem_zipIdx_iff_getElem?.mp hx)).1
    have := hty x hx
    rw [getElem?_eq_getElem hi] at this
    exact typeOf_eq_some_isSome this

theorem clean_verifyDirectCall (key : FunctionKey) (callee : FunctionId) (arguments : List ℕ)
    (result : IrType) (block position : ℕ) (values : List ValueInfo) (signatures : Signatures)
    (span : Span) :
    (verifyDirectCall key callee arguments result block position values signatures span).Clean ↔
      (∃ parameters, calleeSignature signatures callee = some (parameters, result)
        ∧ arguments.map (typeOf values) = parameters.map some)
      ∧ ∀ x ∈ arguments, DefinedBefore values block position x := by
  unfold verifyDirectCall
  cases hsig : calleeSignature signatures callee with
  | none => simp
  | some sig =>
    obtain ⟨parameters, targetResult⟩ := sig
    have := clean_arguments values block position span arguments parameters fun argumentIndex =>
      errorAt "ZRYNA-I2011" (some span)
        s!"direct call argument #{argumentIndex} has the wrong type"
        "preserve source argument order and exact parameter types"
    simp only [clean_bind, clean_pushIf, clean_pure, and_true, not_or, ne_eq, not_not,
      Option.some.injEq, Prod.mk.injEq]
    constructor
    · rintro ⟨⟨hlen, hres⟩, hargs⟩
      have h := this.mp ⟨hlen, hargs⟩
      exact ⟨⟨parameters, ⟨rfl, hres.symm⟩, h.1⟩, h.2⟩
    · rintro ⟨⟨parameters', ⟨rfl, rfl⟩, hty⟩, hdef⟩
      have h := this.mpr ⟨hty, hdef⟩
      exact ⟨⟨h.1, rfl⟩, h.2⟩

/-- A clean instruction is typed, and its operands from the same block are defined before it. -/
theorem clean_verifyInstruction (key : FunctionKey) (block position : ℕ)
    (instruction : Instruction) (values : List ValueInfo) (signatures : Signatures) :
    (verifyInstruction key block position instruction values signatures).Clean ↔
      InstructionTyped values signatures instruction
        ∧ ∀ x ∈ instructionOperands instruction.kind, DefinedBefore values block position x := by
  obtain ⟨⟨id, ty, span⟩, kind⟩ := instruction
  unfold verifyInstruction InstructionTyped
  cases kind with
  | boolLiteral value | i32Literal value =>
    simp only [expectResult, clean_bind, clean_pushIf, clean_pure, and_true, ne_eq, not_not,
      instructionOperands, not_mem_nil, false_implies, implies_true]
    constructor
    · rintro rfl
      exact ⟨[], by constructor, rfl⟩
    · rintro ⟨_, htyped, _⟩
      cases htyped
      rfl
  | directCall callee arguments => exact clean_verifyDirectCall ..
  | eq lhs rhs | ne lhs rhs =>
    simp only [clean_bind, clean_pure, and_true, clean_expectEquality, instructionOperands]
    constructor
    · rintro ⟨rfl, hdef, ty, hty⟩
      exact ⟨⟨_, by constructor, hty⟩, hdef⟩
    · rintro ⟨⟨tys, htyped, hty⟩, hdef⟩
      cases htyped
      exact ⟨rfl, hdef, _, hty⟩
  | i32Neg operand | i32Add lhs rhs | i32Sub lhs rhs | i32Mul lhs rhs | i32LtS lhs rhs
  | i32LeS lhs rhs | i32GtS lhs rhs | i32GeS lhs rhs =>
    simp only [clean_bind, clean_pure, and_true, clean_expectValues, instructionOperands]
    constructor
    · rintro ⟨rfl, hdef, hty⟩
      exact ⟨⟨_, by constructor, hty⟩, by simpa using hdef⟩
    · rintro ⟨⟨tys, htyped, hty⟩, hdef⟩
      cases htyped
      exact ⟨rfl, by simpa using hdef, hty⟩

/-! ### Terminators and edges -/

/-- An edge to an existing block other than the entry, with arguments of its parameter types. -/
def EdgeTyped (function : Function) (values : List ValueInfo) (target : ℕ)
    (arguments : List ℕ) : Prop :=
  target ≠ 0 ∧ ∃ block, function.blocks[target]? = some block
    ∧ arguments.map (typeOf values) = (block.parameters.map ValueDefinition.ty).map some

/-- A terminator whose operands have the types it demands. -/
def TerminatorTyped (function : Function) (values : List ValueInfo) : Terminator → Prop
  | .return value => typeOf values value = some function.result
  | .jump target arguments => EdgeTyped function values target arguments
  | .branch condition trueTarget trueArguments falseTarget falseArguments =>
    typeOf values condition = some .bool ∧ EdgeTyped function values trueTarget trueArguments
      ∧ EdgeTyped function values falseTarget falseArguments

def edgesOf (source : ℕ) : Terminator → List Edge
  | .return _ => []
  | .jump target arguments => [⟨source, target, arguments⟩]
  | .branch _ trueTarget trueArguments falseTarget falseArguments =>
    [⟨source, trueTarget, trueArguments⟩, ⟨source, falseTarget, falseArguments⟩]

def blockEdges (entry : Block × ℕ) : List Edge :=
  match entry.1.terminators with
  | [terminator] => edgesOf entry.2 terminator.kind
  | _ => []

def Function.edges (function : Function) : List Edge := function.blocks.zipIdx.flatMap blockEdges

theorem clean_verifyEdge (key : FunctionKey) (source target : ℕ) (arguments : List ℕ)
    (function : Function) (position : ℕ) (values : List ValueInfo) (span : Span) :
    (verifyEdge key source target arguments function position values span).Clean ↔
      EdgeTyped function values target arguments
        ∧ ∀ x ∈ arguments, DefinedBefore values source position x := by
  unfold verifyEdge EdgeTyped
  cases hb : function.blocks[target]? with
  | none => simp
  | some block =>
    have := clean_arguments values source position span arguments
      (block.parameters.map ValueDefinition.ty) fun index =>
        errorAt "ZRYNA-I2017" (some span) s!"block argument #{index} has the wrong type"
          "match target block parameter types exactly"
    simp only [length_map, getElem?_map] at this
    simp only [clean_bind, clean_pushIf, clean_pure, and_true, ne_eq, not_not, Option.some.injEq,
      exists_eq_left']
    constructor
    · rintro ⟨hne, hlen, hargs⟩
      exact ⟨⟨hne, (this.mp ⟨hlen, hargs⟩).1⟩, (this.mp ⟨hlen, hargs⟩).2⟩
    · rintro ⟨⟨hne, hty⟩, hdef⟩
      exact ⟨hne, (this.mpr ⟨hty, hdef⟩).1, (this.mpr ⟨hty, hdef⟩).2⟩

variable {function : Function}

theorem value_verifyEdge {source target : ℕ} {arguments : List ℕ} {span : Span}
    (h : EdgeTyped function values target arguments) :
    (verifyEdge key source target arguments function position values span).value
      = [⟨source, target, arguments⟩] := by
  obtain ⟨-, block, hb, -⟩ := h
  unfold verifyEdge
  rw [hb]
  rfl

/-- A clean terminator is typed, and its operands from the same block are defined before it. -/
theorem clean_verifyTerminator (key : FunctionKey) (block position : ℕ) (function : Function)
    (terminator : SpannedTerminator) (values : List ValueInfo) :
    (verifyTerminator key block position function terminator values).Clean ↔
      TerminatorTyped function values terminator.kind
        ∧ ∀ x ∈ terminatorOperands terminator.kind, DefinedBefore values block position x := by
  unfold verifyTerminator TerminatorTyped
  cases terminator.kind with
  | «return» value =>
    simp only [clean_bind, clean_checkedUse, value_checkedUse, clean_pushIf, clean_pure, and_true,
      ne_eq, not_not, terminatorOperands, mem_singleton, forall_eq]
    constructor
    · rintro ⟨⟨_, hdef⟩, hty⟩
      exact ⟨hty, hdef⟩
    · rintro ⟨hty, hdef⟩
      exact ⟨⟨typeOf_eq_some_isSome hty, hdef⟩, hty⟩
  | jump target arguments => exact clean_verifyEdge ..
  | branch condition trueTarget trueArguments falseTarget falseArguments =>
    simp only [clean_bind, clean_checkedUse, value_checkedUse, clean_pushIf, clean_pure, and_true,
      ne_eq, not_not, clean_verifyEdge, terminatorOperands, mem_cons, mem_append]
    constructor
    · rintro ⟨⟨_, hdef⟩, hty, ⟨ht, htd⟩, hf, hfd⟩
      refine ⟨⟨hty, ht, hf⟩, ?_⟩
      rintro x (rfl | hx | hx)
      exacts [hdef, htd x hx, hfd x hx]
    · rintro ⟨⟨hty, ht, hf⟩, hdef⟩
      exact ⟨⟨typeOf_eq_some_isSome hty, hdef _ (.inl rfl)⟩, hty,
        ⟨ht, fun x hx => hdef x (.inr (.inl hx))⟩, hf, fun x hx => hdef x (.inr (.inr hx))⟩

theorem value_verifyTerminator {block : ℕ} {terminator : SpannedTerminator}
    (h : TerminatorTyped function values terminator.kind) :
    (verifyTerminator key block position function terminator values).value
      = edgesOf block terminator.kind := by
  unfold verifyTerminator
  revert h
  cases terminator.kind with
  | «return» value => exact fun _ => rfl
  | jump target arguments => exact fun h => value_verifyEdge h
  | branch condition trueTarget trueArguments falseTarget falseArguments =>
    rintro ⟨-, ht, hf⟩
    simp only [value_bind, value_pure, value_verifyEdge ht, value_verifyEdge hf]
    rfl

/-! ### The body walk -/

/-- What the body walk demands of one block. -/
structure BlockChecked (key : FunctionKey) (function : Function) (values : List ValueInfo)
    (signatures : Signatures) (entry : Block × ℕ) : Prop where
  instruction : ∀ x ∈ entry.1.instructions.zipIdx,
    (verifyInstruction key entry.2 x.2 x.1 values signatures).Clean
  terminator : ∃ t, entry.1.terminators = [t]
    ∧ (verifyTerminator key entry.2 entry.1.instructions.length function t values).Clean

section

variable (key : FunctionKey) (function : Function) (values : List ValueInfo)
  (signatures : Signatures) (facts : BodyFacts) (entry : Block × ℕ)

theorem clean_verifyBlock :
    (verifyBlock key function values signatures facts entry).Clean ↔
      BlockChecked key function values signatures entry := by
  obtain ⟨block, index⟩ := entry
  unfold verifyBlock
  simp only [clean_bind]
  rw [clean_foldlM_append fun x : Instruction × ℕ =>
    verifyInstruction key index x.2 x.1 values signatures]
  constructor
  · rintro ⟨hi, ht⟩
    refine ⟨hi, ?_⟩
    rcases hts : block.terminators with _ | ⟨t, _ | _⟩
    · simp [hts] at ht
    · simp only [hts, clean_bind, clean_pure, and_true] at ht
      exact ⟨t, rfl, ht⟩
    · simp [hts] at ht
  · rintro ⟨hi, t, hts, ht⟩
    dsimp only at hts
    rw [hts]
    exact ⟨hi, by simpa using ht⟩

theorem calls_verifyBlock :
    (verifyBlock key function values signatures facts entry).value.calls
      = facts.calls ++ entry.1.instructions.zipIdx.flatMap fun x =>
          (verifyInstruction key entry.2 x.2 x.1 values signatures).value := by
  obtain ⟨block, index⟩ := entry
  unfold verifyBlock
  have h := value_foldlM_append
    (fun x : Instruction × ℕ => verifyInstruction key index x.2 x.1 values signatures)
    block.instructions.zipIdx facts.calls
  simp only [value_bind]
  match block.terminators with
  | [t] => exact h
  | [] => exact h
  | _ :: _ :: _ => exact h

end

variable {signatures : Signatures}

theorem edges_verifyBlock (facts : BodyFacts) {entry : Block × ℕ}
    (h : BlockChecked key function values signatures entry) :
    (verifyBlock key function values signatures facts entry).value.edges
      = facts.edges ++ blockEdges entry := by
  obtain ⟨block, index⟩ := entry
  obtain ⟨t, hts, ht⟩ := h.terminator
  dsimp only at hts ht
  have htyped := ((clean_verifyTerminator ..).mp ht).1
  unfold verifyBlock blockEdges
  dsimp only
  rw [hts]
  simp [value_verifyTerminator htyped]

theorem edges_foldlM_verifyBlock (entries : List (Block × ℕ))
    (h : ∀ entry ∈ entries, BlockChecked key function values signatures entry) (facts : BodyFacts) :
    (entries.foldlM (verifyBlock key function values signatures) facts).value.edges
      = facts.edges ++ entries.flatMap blockEdges := by
  induction entries generalizing facts with
  | nil => simp
  | cons entry entries ih =>
    rw [foldlM_cons, value_bind, ih (fun e he => h e (by simp [he])),
      edges_verifyBlock facts (h entry (by simp))]
    simp

theorem calls_foldlM_verifyBlock (key : FunctionKey) (function : Function) (values : List ValueInfo)
    (signatures : Signatures) (entries : List (Block × ℕ)) (facts : BodyFacts) :
    (entries.foldlM (verifyBlock key function values signatures) facts).value.calls
      = facts.calls ++ entries.flatMap fun entry => entry.1.instructions.zipIdx.flatMap fun x =>
          (verifyInstruction key entry.2 x.2 x.1 values signatures).value := by
  induction entries generalizing facts with
  | nil => simp
  | cons entry entries ih =>
    rw [foldlM_cons, value_bind, ih, calls_verifyBlock]
    simp

end Zryna.Ir.ControlFlow
