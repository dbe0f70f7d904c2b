import Zryna.Ir.ControlFlow.Interpreter
import Zryna.Ir.ControlFlow.Ssa

/-!
# Dropping block parameters and renumbering values

`Function.thin` drops the block parameters that a predicate does not keep, together with the
arguments that edges pass to them. `Function.rename` renumbers all values. If the operands of the
thinned function are values of the thinned function and the renumbering is injective on these
(`Thinnable`), then the resulting function evaluates like the original (`run_rewritten`): calls
with the same fuel have the same outcome.

The two evaluations go through the same blocks. `Carries` relates their environments, and `Bound`
says on the original side that the arguments which the other side does not read could be read.
-/

namespace Zryna.Ir.ControlFlow

open List

/-! ### The functions -/

/-- The entries of a list that stand beside a kept parameter. -/
def alongside {α : Type} (keep : ℕ → Bool) (parameters : List ValueDefinition) (xs : List α) :
    List α :=
  ((parameters.zip xs).filter fun pair => keep pair.1.id).map Prod.snd

/-- The arguments of an edge for the parameters that are kept. -/
def thinArguments (keep : ℕ → Bool) (blocks : List Block) (target : ℕ) (arguments : List ℕ) :
    List ℕ :=
  match blocks[target]? with
  | some block => alongside keep block.parameters arguments
  | none => arguments

def Terminator.thin (keep : ℕ → Bool) (blocks : List Block) : Terminator → Terminator
  | .return value => .return value
  | .jump target arguments => .jump target (thinArguments keep blocks target arguments)
  | .branch condition trueTarget trueArguments falseTarget falseArguments =>
    .branch condition trueTarget (thinArguments keep blocks trueTarget trueArguments)
      falseTarget (thinArguments keep blocks falseTarget falseArguments)

def Block.thin (keep : ℕ → Bool) (blocks : List Block) (block : Block) : Block :=
  { block with
    parameters := block.parameters.filter fun d => keep d.id
    terminators := block.terminators.map fun t => { t with kind := t.kind.thin keep blocks } }

/-- Drops the block parameters that are not kept, and their arguments. -/
def Function.thin (function : Function) (keep : ℕ → Bool) : Function :=
  { function with blocks := function.blocks.map (Block.thin keep function.blocks) }

def ValueDefinition.rename (ρ : ℕ → ℕ) (d : ValueDefinition) : ValueDefinition :=
  { d with id := ρ d.id }

def InstructionKind.rename (ρ : ℕ → ℕ) : InstructionKind → InstructionKind
  | .boolLiteral value => .boolLiteral value
  | .i32Literal value => .i32Literal value
  | .i32Add lhs rhs => .i32Add (ρ lhs) (ρ rhs)
  | .i32Sub lhs rhs => .i32Sub (ρ lhs) (ρ rhs)
  | .i32Mul lhs rhs => .i32Mul (ρ lhs) (ρ rhs)
  | .i32Neg operand => .i32Neg (ρ operand)
  | .eq lhs rhs => .eq (ρ lhs) (ρ rhs)
  | .ne lhs rhs => .ne (ρ lhs) (ρ rhs)
  | .i32LtS lhs rhs => .i32LtS (ρ lhs) (ρ rhs)
  | .i32LeS lhs rhs => .i32LeS (ρ lhs) (ρ rhs)
  | .i32GtS lhs rhs => .i32GtS (ρ lhs) (ρ rhs)
  | .i32GeS lhs rhs => .i32GeS (ρ lhs) (ρ rhs)
  | .directCall callee arguments => .directCall callee (arguments.map ρ)

def Instruction.rename (ρ : ℕ → ℕ) (instruction : Instruction) : Instruction :=
  ⟨instruction.result.rename ρ, instruction.kind.rename ρ⟩

def Terminator.rename (ρ : ℕ → ℕ) : Terminator → Terminator
  | .return value => .return (ρ value)
  | .jump target arguments => .jump target (arguments.map ρ)
  | .branch condition trueTarget trueArguments falseTarget falseArguments =>
    .branch (ρ condition) trueTarget (trueArguments.map ρ) falseTarget (falseArguments.map ρ)

def Block.rename (ρ : ℕ → ℕ) (block : Block) : Block :=
  { block with
    parameters := block.parameters.map (ValueDefinition.rename ρ)
    instructions := block.instructions.map (Instruction.rename ρ)
    terminators := block.terminators.map fun t => { t with kind := t.kind.rename ρ } }

/-- Renumbers every value, in definitions and in operands. -/
def Function.rename (function : Function) (ρ : ℕ → ℕ) : Function :=
  { function with
    parameters := function.parameters.map (ValueDefinition.rename ρ)
    blocks := function.blocks.map (Block.rename ρ) }

def Function.operands (function : Function) : List ℕ :=
  function.blocks.flatMap fun block =>
    block.instructions.flatMap (fun i => instructionOperands i.kind)
      ++ block.terminators.flatMap fun t => terminatorOperands t.kind

/-! ### Their definitions -/

variable {function : Function} {keep : ℕ → Bool} {ρ : ℕ → ℕ}

@[simp] theorem operands_rename (kind : InstructionKind) :
    instructionOperands (kind.rename ρ) = (instructionOperands kind).map ρ := by
  cases kind <;> rfl

theorem definitions_rename (function : Function) :
    (function.rename ρ).definitions = function.definitions.map (ValueDefinition.rename ρ) := by
  unfold Function.definitions Function.rename
  rw [map_append, map_flatMap, flatMap_map]
  simp only [Block.rename, map_append, map_map]
  rfl

theorem ids_rename (function : Function) : (function.rename ρ).ids = function.ids.map ρ := by
  unfold Function.ids
  rw [definitions_rename, map_map, map_map]
  rfl

theorem getElem?_thin_rename (b : ℕ) : ((function.thin keep).rename ρ).blocks[b]?
    = function.blocks[b]?.map fun block => (block.thin keep function.blocks).rename ρ := by
  unfold Function.rename Function.thin
  rw [getElem?_map, getElem?_map, Option.map_map]
  rfl

variable {d : ValueDefinition}

theorem mem_definitions_thin : d ∈ (function.thin keep).definitions
    ↔ d ∈ function.parameters ∨ ∃ block ∈ function.blocks,
      d ∈ block.parameters ∧ keep d.id = true ∨ ∃ i ∈ block.instructions, i.result = d := by
  simp [Function.definitions, Function.thin, Block.thin]

theorem definitions_thin_sublist (function : Function) (keep : ℕ → Bool) :
    (function.thin keep).definitions.Sublist function.definitions := by
  unfold Function.definitions Function.thin
  rw [flatMap_map]
  refine (List.Sublist.refl _).append (List.Sublist.flatMap_right _ fun block _ => ?_)
  exact filter_sublist.append (List.Sublist.refl _)

theorem ids_thin_sublist (function : Function) (keep : ℕ → Bool) :
    (function.thin keep).ids.Sublist function.ids :=
  (definitions_thin_sublist function keep).map _

/-- A parameter that is dropped is not a value of the thinned function. -/
theorem mem_ids_thin (h : SsaBody function) {b : ℕ} {block : Block}
    (hb : function.blocks[b]? = some block) (hd : d ∈ block.parameters) :
    d.id ∈ (function.thin keep).ids ↔ keep d.id = true := by
  have hlocated : (d, DefinitionLocation.blockParameter b) ∈ function.located :=
    mem_located.mpr ⟨block, hb, hd⟩
  constructor
  · intro hmem
    obtain ⟨d', hd', hid⟩ := mem_map.mp hmem
    -- `d` is the only definition of its number, and it is not defined anywhere else
    have hunique {location : DefinitionLocation} (hl : (d', location) ∈ function.located) :
        (d', location) = (d, .blockParameter b) := h.located_unique hl hlocated hid
    rcases mem_definitions_thin.mp hd' with hp | ⟨block', hb', ⟨-, hkeep⟩ | ⟨i, hi, rfl⟩⟩
    · have hl : (d', DefinitionLocation.parameter) ∈ function.located := mem_located.mpr hp
      cases hunique hl
    · rwa [← hid]
    · obtain ⟨c, hc⟩ := mem_iff_getElem?.mp hb'
      obtain ⟨k, hk⟩ := mem_iff_getElem?.mp hi
      have hl : (i.result, DefinitionLocation.instruction c k) ∈ function.located :=
        mem_located.mpr ⟨block', i, hc, hk, rfl⟩
      cases hunique hl
  · intro hkeep
    refine mem_map_of_mem (mem_definitions_thin.mpr (.inr ⟨block, ?_, .inl ⟨hd, hkeep⟩⟩))
    exact mem_of_getElem? hb

/-! ### Lists beside the parameters -/

section Alongside

variable {α : Type} {parameters : List ValueDefinition} {values : List Value} {env : Env}

@[simp] theorem alongside_nil (xs : List α) : alongside keep [] xs = [] := rfl

theorem alongside_cons (d : ValueDefinition) (x : α) (xs : List α) :
    alongside keep (d :: parameters) (x :: xs)
      = if keep d.id = true then x :: alongside keep parameters xs
        else alongside keep parameters xs := by
  unfold alongside
  rw [zip_cons_cons, filter_cons]
  split <;> rfl

theorem alongside_true {xs : List α} (h : xs.length ≤ parameters.length) :
    alongside (fun _ => true) parameters xs = xs := by
  unfold alongside
  rw [filter_true]
  exact map_snd_zip h

theorem map_alongside {β : Type} (f : α → β) (xs : List α) :
    (alongside keep parameters xs).map f = alongside keep parameters (xs.map f) := by
  unfold alongside
  rw [zip_map_right, filter_map, map_map, map_map]
  rfl

theorem alongside_self (f : ValueDefinition → α) :
    alongside keep parameters (parameters.map f)
      = (parameters.filter fun d => keep d.id).map f := by
  induction parameters with
  | nil => rfl
  | cons d parameters ih =>
    rw [map_cons, alongside_cons, ih, filter_cons]
    split <;> rfl

/-- The operands that are left are read to the values that are left. -/
theorem readOperands_alongside {xs : List ℕ} (keep : ℕ → Bool)
    (parameters : List ValueDefinition) (h : readOperands function env xs = some values) :
    readOperands function env (alongside keep parameters xs)
      = some (alongside keep parameters values) := by
  induction xs generalizing parameters values with
  | nil =>
    obtain rfl : [] = values := Option.some.inj h
    cases parameters <;> rfl
  | cons x xs ih =>
    rw [readOperands] at h
    obtain ⟨value, hvalue, hrest⟩ := Option.bind_eq_some_iff.mp h
    obtain ⟨rest, hread, rfl⟩ := Option.map_eq_some_iff.mp hrest
    cases parameters with
    | nil => rfl
    | cons d parameters =>
      rw [alongside_cons, alongside_cons]
      split
      · rw [readOperands, hvalue, ih parameters hread]
        rfl
      · exact ih parameters hread

end Alongside

/-! ### Environments -/

/-- The renumbered environment holds the same value for every number of the list. -/
def Carries (ids : List ℕ) (ρ : ℕ → ℕ) (env env' : Env) : Prop := ∀ x ∈ ids, env' (ρ x) = env x

namespace Carries

variable {ids : List ℕ} {env env' : Env} {y : ℕ}

theorem update (hρ : Set.InjOn ρ {x | x ∈ ids}) (h : Carries ids ρ env env')
    (hy : y ∈ ids) (v : Option Value) :
    Carries ids ρ (Function.update env y v) (Function.update env' (ρ y) v) := by
  intro x hx
  by_cases hxy : x = y
  · subst hxy
    rw [Function.update_self, Function.update_self]
  · have hne : ρ x ≠ ρ y := fun heq => hxy (hρ hx hy heq)
    rw [Function.update_of_ne hxy, Function.update_of_ne hne, h x hx]

/-- What is not carried over may change. -/
theorem update_other (h : Carries ids ρ env env') (hy : y ∉ ids) (v : Option Value) :
    Carries ids ρ (Function.update env y v) env' := by
  intro x hx
  have hxy : x ≠ y := fun heq => hy (heq ▸ hx)
  rw [Function.update_of_ne hxy, h x hx]

theorem bindAll (hρ : Set.InjOn ρ {x | x ∈ ids}) {parameters : List ValueDefinition}
    (hkeep : ∀ d ∈ parameters, d.id ∈ ids ↔ keep d.id = true) (values : List Value)
    (h : Carries ids ρ env env') :
    Carries ids ρ (env.bindAll ((parameters.map ValueDefinition.id).zip values))
      (env'.bindAll ((((parameters.filter fun d => keep d.id).map (ValueDefinition.rename ρ)).map
        ValueDefinition.id).zip (alongside keep parameters values))) := by
  induction parameters generalizing values env env' with
  | nil => exact h
  | cons d parameters ih =>
    obtain ⟨hd, hkeep⟩ := forall_mem_cons.mp hkeep
    cases values with
    | nil =>
      have hnil : alongside keep (d :: parameters) ([] : List Value) = [] := rfl
      rw [hnil, zip_nil_right, zip_nil_right]
      exact h
    | cons v values =>
      rw [alongside_cons, filter_cons, map_cons, zip_cons_cons, Env.bindAll]
      split
      · next hkept =>
        rw [map_cons, map_cons, zip_cons_cons, Env.bindAll]
        exact ih hkeep values (h.update hρ (hd.mpr hkept) _)
      · next hdropped =>
        exact ih hkeep values (h.update_other (fun hmem => hdropped (hd.mp hmem)) _)

/-- Parameters of both sides are bound together. -/
theorem bindParameters (hρ : Set.InjOn ρ {x | x ∈ ids}) {parameters : List ValueDefinition}
    (hkeep : ∀ d ∈ parameters, d.id ∈ ids ↔ keep d.id = true) {values : List Value}
    (hty : values.map Value.ty = parameters.map ValueDefinition.ty) (h : Carries ids ρ env env') :
    ∃ env₁ env₁', ControlFlow.bindParameters parameters values env = some env₁
      ∧ ControlFlow.bindParameters
          ((parameters.filter fun d => keep d.id).map (ValueDefinition.rename ρ))
          (alongside keep parameters values) env' = some env₁'
      ∧ Carries ids ρ env₁ env₁' := by
  have hty' : (alongside keep parameters values).map Value.ty
      = ((parameters.filter fun d => keep d.id).map (ValueDefinition.rename ρ)).map
        ValueDefinition.ty := by
    calc (alongside keep parameters values).map Value.ty
        = alongside keep parameters (parameters.map ValueDefinition.ty) := by
          rw [map_alongside, hty]
      _ = (parameters.filter fun d => keep d.id).map ValueDefinition.ty := alongside_self _
      _ = _ := by
          rw [map_map]
          rfl
  exact ⟨_, _, if_pos hty, if_pos hty', h.bindAll hρ hkeep values⟩

end Carries

/-! ### Matching runs of one function -/

/-- What makes it harmless to drop the parameters that are not kept and to renumber the rest. -/
structure Thinnable (function : Function) (keep : ℕ → Bool) (ρ : ℕ → ℕ) : Prop where
  ssa : SsaBody function
  closed : ∀ x ∈ (function.thin keep).operands, x ∈ (function.thin keep).ids
  injective : Set.InjOn ρ {x | x ∈ (function.thin keep).ids}

/-- Both evaluations stand at the same position, the left one in the original function. -/
structure Beside (function : Function) (keep : ℕ → Bool) (ρ : ℕ → ℕ) (block position : ℕ)
    (env env' : Env) : Prop where
  bound : Bound function env block position
  carries : Carries (function.thin keep).ids ρ env env'

/-- Both blocks are left in the same way. -/
inductive FlowsBeside (function : Function) (keep : ℕ → Bool) (ρ : ℕ → ℕ) : Flow → Flow → Prop
  | leave (value : Value) : FlowsBeside function keep ρ (.leave value) (.leave value)
  | enter {target : ℕ} {env env' : Env} (h : Beside function keep ρ target 0 env env') :
      FlowsBeside function keep ρ (.enter target env) (.enter target env')

theorem evalOperation_rename (kind : InstructionKind) (values : List Value) :
    evalOperation (kind.rename ρ) values = evalOperation kind values := by
  -- the operation looks at the kind and at the values, not at the operands
  rcases values with _ | ⟨_ | _, _ | ⟨_ | _, _ | _⟩⟩ <;> cases kind <;> rfl

theorem runOperation_rename (call : FunctionId → List Value → Result Value)
    (kind : InstructionKind) (values : List Value) :
    runOperation call (kind.rename ρ) values = runOperation call kind values := by
  cases kind with
  | directCall callee arguments => rfl
  | _ => exact congrArg orStuck (evalOperation_rename _ values)

namespace Thinnable

variable {env env' : Env} {b k : ℕ} {block : Block} {t : SpannedTerminator}
  {call : FunctionId → List Value → Result Value}

section

variable (h : Thinnable function keep ρ)

include h

variable {x : ℕ} {i : Instruction}

theorem declaredType (hx : x ∈ (function.thin keep).ids) :
    ((function.thin keep).rename ρ).declaredType (ρ x) = function.declaredType x := by
  obtain ⟨d, hd, rfl⟩ := mem_map.mp hx
  have hdistinct : ((function.thin keep).rename ρ).ids.Nodup := by
    rw [ids_rename]
    refine List.Nodup.map_on (fun x hx y hy heq => h.injective hx hy heq) ?_
    exact (ids_thin_sublist function keep).nodup h.ssa.distinct
  have hmem : d.rename ρ ∈ ((function.thin keep).rename ρ).definitions := by
    rw [definitions_rename]
    exact mem_map_of_mem hd
  calc ((function.thin keep).rename ρ).declaredType (ρ d.id)
      = some d.ty := declaredType_of_mem hdistinct hmem
    _ = function.declaredType d.id :=
      (declaredType_of_mem h.ssa.distinct ((definitions_thin_sublist function keep).mem hd)).symm

theorem readOperand (henv : Carries (function.thin keep).ids ρ env env')
    (hx : x ∈ (function.thin keep).ids) :
    readOperand ((function.thin keep).rename ρ) env' (ρ x) = readOperand function env x := by
  unfold ControlFlow.readOperand
  rw [henv x hx, h.declaredType hx]

theorem readOperands (henv : Carries (function.thin keep).ids ρ env env') {xs : List ℕ}
    (hxs : ∀ x ∈ xs, x ∈ (function.thin keep).ids) :
    readOperands ((function.thin keep).rename ρ) env' (xs.map ρ)
      = readOperands function env xs := by
  induction xs with
  | nil => rfl
  | cons x xs ih =>
    obtain ⟨hx, hxs⟩ := forall_mem_cons.mp hxs
    rw [map_cons, ControlFlow.readOperands, ControlFlow.readOperands, h.readOperand henv hx,
      ih hxs]

theorem instruction_closed (hb : function.blocks[b]? = some block) (hi : i ∈ block.instructions) :
    ∀ x ∈ instructionOperands i.kind, x ∈ (function.thin keep).ids := by
  intro x hx
  refine h.closed x (mem_flatMap.mpr ⟨block.thin keep function.blocks, ?_, ?_⟩)
  · exact mem_map_of_mem (mem_of_getElem? hb)
  · exact mem_append_left _ (mem_flatMap.mpr ⟨i, hi, hx⟩)

theorem terminator_closed (hb : function.blocks[b]? = some block) (ht : block.terminators = [t]) :
    ∀ x ∈ terminatorOperands (t.kind.thin keep function.blocks), x ∈ (function.thin keep).ids := by
  intro x hx
  refine h.closed x (mem_flatMap.mpr ⟨block.thin keep function.blocks, ?_, ?_⟩)
  · exact mem_map_of_mem (mem_of_getElem? hb)
  · refine mem_append_right _ (mem_flatMap.mpr ⟨_, mem_map_of_mem ?_, hx⟩)
    rw [ht]
    exact mem_singleton_self t

theorem runInstruction (hb : function.blocks[b]? = some block)
    (hi : block.instructions[k]? = some i) (henv : Beside function keep ρ b k env env') :
    (runInstruction call function i env).Matches (Beside function keep ρ b (k + 1))
      (runInstruction call ((function.thin keep).rename ρ) (i.rename ρ) env') := by
  have hread : ControlFlow.readOperands ((function.thin keep).rename ρ) env'
      (instructionOperands (i.rename ρ).kind)
        = ControlFlow.readOperands function env (instructionOperands i.kind) := by
    rw [Instruction.rename, operands_rename]
    exact h.readOperands henv.carries (h.instruction_closed hb (mem_of_getElem? hi))
  have hresult : i.result.id ∈ (function.thin keep).ids :=
    mem_map_of_mem (mem_definitions_thin.mpr
      (.inr ⟨block, mem_of_getElem? hb, .inr ⟨i, mem_of_getElem? hi, rfl⟩⟩))
  unfold ControlFlow.runInstruction
  rw [hread]
  refine (Outcome.Matches.refl Eq.refl _).bind ?_
  rintro values _ rfl
  rw [show (i.rename ρ).kind = i.kind.rename ρ from rfl, runOperation_rename]
  refine (Outcome.Matches.refl Eq.refl _).bind ?_
  rintro value _ rfl
  rw [show (i.rename ρ).result.ty = i.result.ty from rfl]
  split
  · next hty =>
    exact ⟨henv.bound.define h.ssa hb hi hty, henv.carries.update h.injective hresult _⟩
  · exact Outcome.matches_fault ()

theorem runInstructions (hb : function.blocks[b]? = some block)
    {rest : List Instruction} (hdrop : block.instructions.drop k = rest)
    (hle : k ≤ block.instructions.length) (henv : Beside function keep ρ b k env env') :
    (runInstructions call function rest env).Matches
      (Beside function keep ρ b block.instructions.length)
      (runInstructions call ((function.thin keep).rename ρ) (rest.map (Instruction.rename ρ))
        env') := by
  induction rest generalizing k env env' with
  | nil =>
    obtain rfl : k = block.instructions.length :=
      le_antisymm hle (drop_eq_nil_iff.mp hdrop)
    exact henv
  | cons i rest ih =>
    have hi : block.instructions[k]? = some i := by
      rw [← head?_drop, hdrop, head?_cons]
    have hlt := (List.getElem?_eq_some_iff.mp hi).1
    have htail : block.instructions.drop (k + 1) = rest := by
      rw [← tail_drop, hdrop, tail_cons]
    exact (h.runInstruction hb hi henv).bind fun _ _ hnext => ih htail hlt hnext

/-- An edge. The original reads every argument, and binds every parameter. -/
theorem runEdge {e : Edge} (he : e ∈ function.edges) (hb : function.blocks[e.source]? = some block)
    (henv : Beside function keep ρ e.source block.instructions.length env env')
    (hdefined : ∀ x ∈ e.arguments, function.DefinedAt x e.source block.instructions.length)
    (hkept : ∀ x ∈ thinArguments keep function.blocks e.target e.arguments,
      x ∈ (function.thin keep).ids) :
    (runEdge function e.target e.arguments env).Matches (FlowsBeside function keep ρ)
      (runEdge ((function.thin keep).rename ρ) e.target
        ((thinArguments keep function.blocks e.target e.arguments).map ρ) env') := by
  obtain ⟨target, ht, htypes⟩ := h.ssa.edge e he
  obtain ⟨values, hread, hty⟩ := henv.bound.readOperands h.ssa hdefined
  have hty : values.map Value.ty = target.parameters.map ValueDefinition.ty :=
    map_injective_iff.mpr (Option.some_injective _) (hty.trans htypes)
  have hkeep : ∀ d ∈ target.parameters, d.id ∈ (function.thin keep).ids ↔ keep d.id = true :=
    fun d hd => mem_ids_thin h.ssa ht hd
  obtain ⟨env₁, env₁', hbind, hbind', hcarries⟩ :=
    henv.carries.bindParameters h.injective hkeep hty
  have hread' : ControlFlow.readOperands ((function.thin keep).rename ρ) env'
      ((thinArguments keep function.blocks e.target e.arguments).map ρ)
        = some (alongside keep target.parameters values) := by
    rw [h.readOperands henv.carries hkept, thinArguments, ht]
    exact readOperands_alongside keep target.parameters hread
  unfold ControlFlow.runEdge
  rw [hread, hread', getElem?_thin_rename, ht]
  simp only [orStuck, Outcome.ofOption_some, Outcome.done_bind, Option.map_some]
  split
  · exact Outcome.matches_fault ()
  · rw [hbind, show ((target.thin keep function.blocks).rename ρ).parameters
      = (target.parameters.filter fun d => keep d.id).map (ValueDefinition.rename ρ) from rfl,
      hbind']
    exact .enter ⟨henv.bound.takeEdge h.ssa hb he ht hbind, hcarries⟩

theorem runTerminator (hb : function.blocks[b]? = some block) (ht : block.terminators = [t])
    (henv : Beside function keep ρ b block.instructions.length env env') :
    (runTerminator function t.kind env).Matches (FlowsBeside function keep ρ)
      (runTerminator ((function.thin keep).rename ρ)
        ((t.kind.thin keep function.blocks).rename ρ) env') := by
  have hdefined := h.ssa.terminator_use b block hb t ht
  have hkept := h.terminator_closed hb ht
  have hedges : ∀ e ∈ edgesOf b t.kind, e ∈ function.edges := fun e he => mem_edges hb ht he
  cases hkind : t.kind with
  | «return» value =>
    rw [hkind] at hkept
    simp only [Terminator.thin, Terminator.rename, ControlFlow.runTerminator]
    rw [h.readOperand henv.carries (hkept value (mem_singleton_self value))]
    refine (Outcome.Matches.refl Eq.refl _).bind ?_
    rintro result _ rfl
    rw [show ((function.thin keep).rename ρ).result = function.result from rfl]
    split
    · exact .leave result
    · exact Outcome.matches_fault ()
  | jump target arguments =>
    rw [hkind] at hdefined hkept hedges
    exact h.runEdge (hedges ⟨b, target, arguments⟩ (mem_singleton_self _)) hb henv hdefined
      hkept
  | branch condition trueTarget trueArguments falseTarget falseArguments =>
    rw [hkind] at hdefined hkept hedges
    simp only [Terminator.thin, terminatorOperands, mem_cons, mem_append] at hdefined hkept
    simp only [Terminator.thin, Terminator.rename, ControlFlow.runTerminator]
    rw [h.readOperand henv.carries (hkept condition (.inl rfl))]
    refine (Outcome.Matches.refl Eq.refl _).bind ?_
    rintro value _ rfl
    obtain (_ | _) | _ := value
    · exact h.runEdge (hedges ⟨b, falseTarget, falseArguments⟩ (by simp [edgesOf])) hb henv
        (fun x hx => hdefined x (.inr (.inr hx))) fun x hx => hkept x (.inr (.inr hx))
    · exact h.runEdge (hedges ⟨b, trueTarget, trueArguments⟩ (by simp [edgesOf])) hb henv
        (fun x hx => hdefined x (.inr (.inl hx))) fun x hx => hkept x (.inr (.inl hx))
    · exact Outcome.matches_fault ()

theorem runBlock (hb : function.blocks[b]? = some block)
    (henv : Beside function keep ρ b 0 env env') :
    (runBlock call function block env).Matches (FlowsBeside function keep ρ)
      (runBlock call ((function.thin keep).rename ρ) ((block.thin keep function.blocks).rename ρ)
        env') := by
  obtain ⟨t, ht⟩ := h.ssa.terminator block (mem_of_getElem? hb)
  unfold ControlFlow.runBlock
  refine (h.runInstructions hb (drop_zero) (Nat.zero_le _) henv).bind fun _ _ hend => ?_
  simp only [Block.rename, Block.thin, ht, map_cons, map_nil]
  exact h.runTerminator hb ht hend

theorem runBlocks (fuel : ℕ) (henv : Beside function keep ρ b 0 env env') :
    runBlocks call ((function.thin keep).rename ρ) fuel b env'
      = runBlocks call function fuel b env := by
  induction fuel generalizing b env env' with
  | zero => rfl
  | succ fuel ih =>
    rw [ControlFlow.runBlocks, ControlFlow.runBlocks, getElem?_thin_rename]
    cases hb : function.blocks[b]? with
    | none => rfl
    | some block =>
      simp only [Option.map_some, orStuck, Outcome.ofOption_some, Outcome.done_bind]
      refine (Outcome.Matches.eq ((h.runBlock hb henv).bind fun flow flow' hflow => ?_)).symm
      cases hflow with
      | leave value => exact rfl
      | @enter target env env' hnext =>
        change Outcome.Matches _ (ControlFlow.runBlocks call function fuel target env)
          (ControlFlow.runBlocks call ((function.thin keep).rename ρ) fuel target env')
        rw [ih hnext]
        exact Outcome.Matches.refl Eq.refl _

/-- A call starts alike on both sides. -/
theorem runEnter {program program' : Program} {id : FunctionId}
    (hf : program.function? id = some function)
    (hf' : program'.function? id = some ((function.thin keep).rename ρ)) (arguments : List Value) :
    (runEnter program id arguments).Matches
      (fun start start' => start.1 = function ∧ start'.1 = (function.thin keep).rename ρ
        ∧ Beside function keep ρ 0 0 start.2 start'.2)
      (runEnter program' id arguments) := by
  have hparameters : ((function.thin keep).rename ρ).parameters.map ValueDefinition.ty
      = function.parameters.map ValueDefinition.ty := map_map
  unfold ControlFlow.runEnter
  rw [hf, hf']
  simp only [orStuck, Outcome.ofOption_some, Outcome.done_bind]
  by_cases hty : arguments.map Value.ty = function.parameters.map ValueDefinition.ty
  · have hkeep : ∀ d ∈ function.parameters,
        d.id ∈ (function.thin keep).ids ↔ (fun _ : ℕ => true) d.id = true := fun d hd =>
      iff_of_true (mem_map_of_mem (mem_definitions_thin.mpr (.inl hd))) rfl
    have hnone : Carries (function.thin keep).ids ρ (fun _ => none) fun _ => none :=
      fun _ _ => rfl
    obtain ⟨env, env', hbind, hbind', hcarries⟩ :=
      @Carries.bindParameters (fun _ => true) ρ _ _ _ h.injective _ hkeep _ hty hnone
    have hlen : arguments.length = function.parameters.length := by
      simpa using congrArg List.length hty
    rw [alongside_true hlen.le, filter_true] at hbind'
    rw [hbind, show ((function.thin keep).rename ρ).parameters
      = function.parameters.map (ValueDefinition.rename ρ) from rfl, hbind']
    exact ⟨rfl, rfl, Bound.enter h.ssa hbind, hcarries⟩
  · rw [bindParameters, if_neg hty, bindParameters, hparameters, if_neg hty]
    exact Outcome.matches_fault ()

end

end Thinnable

/-! ### Programs -/

/-- Some functions of the program are thinned and renumbered. -/
def Rewritten (program program' : Program) : Prop :=
  ∀ id, program'.function? id = program.function? id
    ∨ ∃ function keep ρ, Thinnable function keep ρ ∧ program.function? id = some function
      ∧ program'.function? id = some ((function.thin keep).rename ρ)

variable {program : Program}

/-- Calls have the same outcome at every fuel. -/
theorem run_rewritten {program' : Program} (h : Rewritten program program')
    (fuel : ℕ) : run program' fuel = run program fuel := by
  induction fuel with
  | zero =>
    ext id arguments
    obtain hsame | ⟨function, keep, ρ, hthin, hf, hf'⟩ := h id
    · simp only [run, runEnter, hsame]
    · exact (Outcome.Matches.eq ((hthin.runEnter hf hf' arguments).bind
        fun _ _ _ => Outcome.Matches.refl Eq.refl .timeout)).symm
  | succ fuel ih =>
    ext id arguments
    obtain hsame | ⟨function, keep, ρ, hthin, hf, hf'⟩ := h id
    · simp only [run, runEnter, hsame, ih]
    · refine (Outcome.Matches.eq ((hthin.runEnter hf hf' arguments).bind ?_)).symm
      rintro ⟨_, env⟩ ⟨_, env'⟩ ⟨rfl, rfl, hstart⟩
      rw [ih]
      dsimp only
      rw [hthin.runBlocks (fuel + 1) hstart]
      exact Outcome.Matches.refl Eq.refl _

/-- The program with another function in place of `id`. -/
def Program.replace (program : Program) (id : FunctionId) (function : Function) : Program :=
  { program with modules := program.modules.modify id.module fun module =>
      { module with functions := module.functions.set id.declaration function } }

variable {id : FunctionId}

theorem function?_replace
    (hf : program.function? id = some function) (replacement : Function) (id' : FunctionId) :
    (program.replace id replacement).function? id'
      = if id' = id then some replacement else program.function? id' := by
  obtain ⟨module, hmodule, hfunction⟩ := Option.bind_eq_some_iff.mp hf
  have hlt := (List.getElem?_eq_some_iff.mp hfunction).1
  unfold Program.function? Program.replace
  rw [getElem?_modify]
  by_cases hm : id.module = id'.module
  · rw [← hm, hmodule, Option.map_eq_map, Option.map_some, if_pos rfl, Option.bind_some,
      Option.bind_some, getElem?_set]
    by_cases hd : id.declaration = id'.declaration
    · have hid : id' = id := by
        cases id
        cases id'
        exact (congrArg₂ FunctionId.mk hm hd).symm
      rw [if_pos hd, if_pos hlt, if_pos hid]
    · rw [if_neg hd, if_neg fun hid => hd (congrArg FunctionId.declaration hid).symm]
  · rw [if_neg fun hid => hm (congrArg FunctionId.module hid).symm]
    simp only [if_neg hm]
    rw [Option.map_eq_map, Option.map_id']

/-- Calls of a program in which one function is thinned and renumbered. -/
theorem Thinnable.run_replace (h : Thinnable function keep ρ)
    (hf : program.function? id = some function) (fuel : ℕ) :
    run (program.replace id ((function.thin keep).rename ρ)) fuel = run program fuel := by
  refine run_rewritten (fun id' => ?_) fuel
  rw [function?_replace hf]
  by_cases hid : id' = id
  · rw [if_pos hid]
    exact .inr ⟨function, keep, ρ, h, hid ▸ hf, rfl⟩
  · rw [if_neg hid]
    exact .inl rfl

end Zryna.Ir.ControlFlow
