import Zryna.Foundation.Checked
import Zryna.Ir.ControlFlow.Numbering
import Zryna.Semantics.ControlFlow.Prune

/-!
# Canonical value numbers

After lowering, `canonicalizeValues` numbers the values of a function from zero in the order of
their definitions: it gives each definition the next number, remembers the new number under the
old one, and then rewrites every operand. An operand without a definition is an error.

For a function whose values have one definition each and whose operands are all defined, the
result is the function renamed by `position`, the place of a value among the definitions
(`canonicalizeValues_eq`).
-/

namespace Zryna.Semantics.ControlFlow

open Zryna.Ir.ControlFlow Checked List

/-- New numbers by old number, and the next number. -/
structure Numbering where
  mapping : List (Option ℕ)
  next : ℕ

def define (definition : ValueDefinition) : StateM Numbering ValueDefinition := fun s =>
  ({ definition with id := s.next }, ⟨s.mapping.set definition.id (some s.next), s.next + 1⟩)

def defineInstruction (instruction : Instruction) : StateM Numbering Instruction := do
  let result ← define instruction.result
  return { instruction with result := result }

def defineBlock (block : Block) : StateM Numbering Block := do
  let parameters ← block.parameters.mapM define
  let instructions ← block.instructions.mapM defineInstruction
  return { block with parameters := parameters, instructions := instructions }

section

variable (parameters : List ValueDefinition) (blocks : List Block)

def defineFunction : StateM Numbering (List ValueDefinition × List Block) := do
  let parameters ← parameters.mapM define
  let blocks ← blocks.mapM defineBlock
  return (parameters, blocks)

section

variable (map : ℕ → Option ℕ)

def rewriteInstructionOperands : InstructionKind → Option InstructionKind
  | .boolLiteral value => some (.boolLiteral value)
  | .i32Literal value => some (.i32Literal value)
  | .i32Neg operand => return .i32Neg (← map operand)
  | .i32Add lhs rhs => return .i32Add (← map lhs) (← map rhs)
  | .i32Sub lhs rhs => return .i32Sub (← map lhs) (← map rhs)
  | .i32Mul lhs rhs => return .i32Mul (← map lhs) (← map rhs)
  | .eq lhs rhs => return .eq (← map lhs) (← map rhs)
  | .ne lhs rhs => return .ne (← map lhs) (← map rhs)
  | .i32LtS lhs rhs => return .i32LtS (← map lhs) (← map rhs)
  | .i32LeS lhs rhs => return .i32LeS (← map lhs) (← map rhs)
  | .i32GtS lhs rhs => return .i32GtS (← map lhs) (← map rhs)
  | .i32GeS lhs rhs => return .i32GeS (← map lhs) (← map rhs)
  | .directCall callee arguments => return .directCall callee (← arguments.mapM map)

def rewriteTerminatorOperands : Terminator → Option Terminator
  | .return value => return .return (← map value)
  | .jump target arguments => return .jump target (← arguments.mapM map)
  | .branch condition trueTarget trueArguments falseTarget falseArguments =>
    return .branch (← map condition) trueTarget (← trueArguments.mapM map) falseTarget
      (← falseArguments.mapM map)

def rewriteInstruction (instruction : Instruction) : Except Diagnostic Instruction :=
  match rewriteInstructionOperands map instruction.kind with
  | some kind => .ok { instruction with kind := kind }
  | none => .error (Diagnostic.errorAt "ZRYNA-M2201" instruction.result.span
      "control-flow lowering retained a value without one canonical definition"
      "report this compiler invariant failure with the smallest source")

def rewriteTerminator (terminator : SpannedTerminator) : Except Diagnostic SpannedTerminator :=
  match rewriteTerminatorOperands map terminator.kind with
  | some kind => .ok { terminator with kind := kind }
  | none => .error (Diagnostic.errorAt "ZRYNA-M2201" terminator.span
      "control-flow lowering retained a terminator value without one canonical definition"
      "report this compiler invariant failure with the smallest source")

def rewriteBlock (block : Block) : Except Diagnostic Block := do
  let instructions ← block.instructions.mapM (rewriteInstruction map)
  match block.terminators with
  | [] => return { block with instructions := instructions }
  | terminator :: rest =>
    let terminator ← rewriteTerminator map terminator
    return { block with instructions := instructions, terminators := terminator :: rest }

end

def bodyCount : ℕ :=
  parameters.length
    + (blocks.map fun block => block.parameters.length + block.instructions.length).sum

/-- One more than the largest value. -/
def mappingSize : ℕ :=
  (parameters.map ValueDefinition.id ++ blocks.flatMap fun block =>
    block.parameters.map ValueDefinition.id
      ++ block.instructions.map fun i => i.result.id).max?.elim 0 (· + 1)

/-- Numbers the values of a function body in the order of their definitions. -/
def canonicalizeValues : Except Diagnostic (List ValueDefinition × List Block) :=
  if bodyCount parameters blocks > maxValuesPerFunction then
    .error (Diagnostic.error "ZRYNA-M2201" none
      "control-flow lowering exceeds the deterministic IR value limit"
      "reduce expressions and live mutable state before semantic analysis")
  else do
    let ((parameters, blocks), numbering) :=
      defineFunction parameters blocks
        ⟨List.replicate (mappingSize parameters blocks) none, 0⟩
    let blocks ← blocks.mapM (rewriteBlock fun value => (numbering.mapping[value]?).join)
    return (parameters, blocks)

end

/-! ### Numbering the definitions -/

/-- The place of a value among the definitions. -/
def position (ids : List ℕ) (x : ℕ) : ℕ := ids.idxOf x

/-- The first `n` of the values have been numbered. -/
structure Numbers (ids : List ℕ) (n : ℕ) (s : Numbering) : Prop where
  next : s.next = n
  inside : ∀ x ∈ ids, x < s.mapping.length
  mapping : ∀ x, (s.mapping[x]?).join = if x ∈ ids.take n then some (position ids x) else none

/-- A step that numbers the values `xs`, which come next, and returns `a`. -/
def Defines (ids : List ℕ) {α : Type} (m : StateM Numbering α) (a : α) (xs : List ℕ) : Prop :=
  ∀ n s, xs <+: ids.drop n → Numbers ids n s → ∃ s', m s = (a, s') ∧ Numbers ids (n + xs.length) s'

namespace Defines

variable {ids xs ys : List ℕ} {α β : Type} {a : α} {b : β}

theorem pure (a : α) : Defines ids (Pure.pure a) a [] := fun _ s _ hs => ⟨s, rfl, hs⟩

theorem bind {m : StateM Numbering α} {f : α → StateM Numbering β} (hm : Defines ids m a xs)
    (hf : Defines ids (f a) b ys) : Defines ids (m >>= f) b (xs ++ ys) := by
  intro n s hprefix hs
  have hxs : xs <+: ids.drop n := (prefix_append xs ys).trans hprefix
  have hys : ys <+: ids.drop (n + xs.length) := by
    obtain ⟨rest, hrest⟩ := hprefix
    refine ⟨rest, ?_⟩
    rw [← drop_drop, ← hrest, append_assoc, drop_left]
  obtain ⟨s₁, h₁, hs₁⟩ := hm n s hxs hs
  obtain ⟨s₂, h₂, hs₂⟩ := hf _ s₁ hys hs₁
  refine ⟨s₂, ?_, ?_⟩
  · calc (m >>= f) s = f (m s).1 (m s).2 := rfl
      _ = (b, s₂) := by rw [h₁, h₂]
  · rwa [length_append, ← Nat.add_assoc]

theorem mapM {γ : Type} {f : γ → StateM Numbering α} {g : γ → α} {h : γ → List ℕ} (zs : List γ)
    (hf : ∀ z ∈ zs, Defines ids (f z) (g z) (h z)) :
    Defines ids (zs.mapM f) (zs.map g) (zs.flatMap h) := by
  induction zs with
  | nil => exact pure []
  | cons z zs ih =>
    obtain ⟨hz, hzs⟩ := forall_mem_cons.mp hf
    rw [mapM_cons, flatMap_cons, map_cons]
    refine hz.bind ?_
    rw [← append_nil (zs.flatMap h)]
    exact (ih hzs).bind (pure _)

theorem define (hids : ids.Nodup) (d : ValueDefinition) :
    Defines ids (ControlFlow.define d) (d.rename (position ids)) [d.id] := by
  intro n s hprefix hs
  have hget : ids[n]? = some d.id := by
    obtain ⟨rest, hrest⟩ := hprefix
    rw [← head?_drop, ← hrest]
    rfl
  obtain ⟨hlt, hid⟩ := List.getElem?_eq_some_iff.mp hget
  have hposition : position ids d.id = n := by
    rw [position, ← hid]
    exact hids.idxOf_getElem n hlt
  have htake (x : ℕ) : x ∈ ids.take (n + 1) ↔ x ∈ ids.take n ∨ x = d.id := by
    rw [take_add_one, hget, mem_append]
    simp
  refine ⟨⟨s.mapping.set d.id (some s.next), s.next + 1⟩, ?_,
    ⟨congrArg (· + 1) hs.next, fun x hx => ?_, fun x => ?_⟩⟩
  · rw [ControlFlow.define, ValueDefinition.rename, hposition, hs.next]
  · rw [length_set]
    exact hs.inside x hx
  · have hinside := hs.inside d.id (hid ▸ getElem_mem hlt)
    dsimp only
    rw [length_singleton, getElem?_set]
    by_cases hx : d.id = x
    · subst hx
      rw [if_pos rfl, if_pos hinside, if_pos ((htake _).mpr (.inr rfl)), hposition, hs.next]
      rfl
    · rw [if_neg hx, hs.mapping]
      simp only [htake, Ne.symm hx, or_false]

theorem instruction (hids : ids.Nodup) (i : Instruction) :
    Defines ids (defineInstruction i) { i with result := i.result.rename (position ids) }
      [i.result.id] :=
  (define hids i.result).bind (pure _)

end Defines

/-- A block with new numbers in its definitions and old ones in its operands. -/
def renameDefinitions (ρ : ℕ → ℕ) (block : Block) : Block :=
  { block with
    parameters := block.parameters.map (ValueDefinition.rename ρ)
    instructions := block.instructions.map fun i => { i with result := i.result.rename ρ } }

def blockIds (block : Block) : List ℕ :=
  block.parameters.map ValueDefinition.id ++ block.instructions.map fun i => i.result.id

theorem defines_block {ids : List ℕ} (hids : ids.Nodup) (block : Block) :
    Defines ids (defineBlock block) (renameDefinitions (position ids) block)
      (blockIds block) := by
  have hparameters := @Defines.mapM ids _ _ define _ (fun d => [d.id]) block.parameters
    fun d _ => Defines.define hids d
  have hinstructions := @Defines.mapM ids _ _ defineInstruction _ (fun i => [i.result.id])
    block.instructions fun i _ => Defines.instruction hids i
  rw [← map_eq_flatMap] at hparameters hinstructions
  refine hparameters.bind ?_
  rw [← append_nil (block.instructions.map _)]
  exact hinstructions.bind (Defines.pure _)

variable {function : Function}

theorem ids_eq_append (function : Function) :
    function.ids = function.parameters.map ValueDefinition.id ++ function.blocks.flatMap blockIds := by
  unfold Function.ids Function.definitions
  rw [map_append, map_flatMap]
  simp only [map_append, map_map]
  rfl

/-- All definitions get the number of their place. -/
theorem defineFunction_eq (hids : function.ids.Nodup) : ∃ numbering,
    defineFunction function.parameters function.blocks
        ⟨List.replicate (mappingSize function.parameters function.blocks) none, 0⟩
      = ((function.parameters.map (ValueDefinition.rename (position function.ids)),
          function.blocks.map (renameDefinitions (position function.ids))), numbering)
      ∧ ∀ x ∈ function.ids, (numbering.mapping[x]?).join = some (position function.ids x) := by
  have hstart : Numbers function.ids 0
      ⟨List.replicate (mappingSize function.parameters function.blocks) none, 0⟩ := by
    refine ⟨rfl, fun x hx => ?_, fun x => ?_⟩
    · rw [length_replicate]
      exact lt_elim_max? (ids_eq_append function ▸ hx)
    · rw [take_zero, if_neg not_mem_nil, getElem?_replicate]
      split <;> rfl
  have hall : Defines function.ids (defineFunction function.parameters function.blocks)
      (function.parameters.map (ValueDefinition.rename (position function.ids)),
        function.blocks.map (renameDefinitions (position function.ids))) function.ids := by
    have hparameters := @Defines.mapM function.ids _ _ define _ (fun d => [d.id])
      function.parameters fun d _ => Defines.define hids d
    have hblocks := @Defines.mapM function.ids _ _ defineBlock _ blockIds
      function.blocks fun block _ => defines_block hids block
    rw [← map_eq_flatMap] at hparameters
    have hboth : Defines function.ids (defineFunction function.parameters function.blocks)
        (function.parameters.map (ValueDefinition.rename (position function.ids)),
          function.blocks.map (renameDefinitions (position function.ids)))
        (function.parameters.map ValueDefinition.id ++ (function.blocks.flatMap blockIds ++ [])) :=
      hparameters.bind (hblocks.bind (Defines.pure _))
    rw [append_nil, ← ids_eq_append] at hboth
    exact hboth
  obtain ⟨numbering, hrun, hend⟩ := hall 0 _ (prefix_rfl) hstart
  refine ⟨numbering, hrun, fun x hx => ?_⟩
  rw [hend.mapping, Nat.zero_add, take_length, if_pos hx]

/-! ### Rewriting the operands -/

section Rewrite

variable {map : ℕ → Option ℕ} {ρ : ℕ → ℕ}

theorem rewriteInstructionOperands_eq {kind : InstructionKind}
    (h : ∀ x ∈ instructionOperands kind, map x = some (ρ x)) :
    rewriteInstructionOperands map kind = some (kind.rename ρ) := by
  cases kind with
  | boolLiteral | i32Literal => rfl
  | i32Neg operand =>
    rw [rewriteInstructionOperands, h operand (mem_singleton_self operand)]
    rfl
  | directCall callee arguments =>
    have harguments : arguments.mapM map = some (arguments.map ρ) := mapM_eq_pure h
    rw [rewriteInstructionOperands, harguments]
    rfl
  | _ lhs rhs =>
    obtain ⟨hlhs, hrhs⟩ : map lhs = some (ρ lhs) ∧ map rhs = some (ρ rhs) :=
      ⟨h lhs mem_cons_self, h rhs (mem_cons_of_mem _ (mem_singleton_self rhs))⟩
    rw [rewriteInstructionOperands, hlhs, hrhs]
    rfl

theorem rewriteTerminatorOperands_eq {kind : Terminator}
    (h : ∀ x ∈ terminatorOperands kind, map x = some (ρ x)) :
    rewriteTerminatorOperands map kind = some (kind.rename ρ) := by
  cases kind with
  | «return» value =>
    rw [rewriteTerminatorOperands, h value (mem_singleton_self value)]
    rfl
  | jump target arguments =>
    have harguments : arguments.mapM map = some (arguments.map ρ) := mapM_eq_pure h
    rw [rewriteTerminatorOperands, harguments]
    rfl
  | branch condition trueTarget trueArguments falseTarget falseArguments =>
    simp only [terminatorOperands, mem_cons, mem_append] at h
    have htrue : trueArguments.mapM map = some (trueArguments.map ρ) :=
      mapM_eq_pure fun x hx => h x (.inr (.inl hx))
    have hfalse : falseArguments.mapM map = some (falseArguments.map ρ) :=
      mapM_eq_pure fun x hx => h x (.inr (.inr hx))
    rw [rewriteTerminatorOperands, h condition (.inl rfl), htrue, hfalse]
    rfl

theorem rewriteBlock_eq {block : Block} {t : SpannedTerminator} (ht : block.terminators = [t])
    (hinstructions : ∀ i ∈ block.instructions, ∀ x ∈ instructionOperands i.kind,
      map x = some (ρ x))
    (hterminator : ∀ x ∈ terminatorOperands t.kind, map x = some (ρ x)) :
    rewriteBlock map (renameDefinitions ρ block) = .ok (block.rename ρ) := by
  have hall : (renameDefinitions ρ block).instructions.mapM (rewriteInstruction map)
      = .ok (block.instructions.map (Instruction.rename ρ)) := by
    rw [renameDefinitions, mapM_map]
    refine mapM_eq_pure fun i hi => ?_
    rw [Function.comp_apply, rewriteInstruction, rewriteInstructionOperands_eq (hinstructions i hi)]
    rfl
  rw [rewriteBlock, hall]
  rw [show (renameDefinitions ρ block).terminators = [t] from ht]
  simp only [rewriteTerminator, rewriteTerminatorOperands_eq hterminator]
  rw [Block.rename, ht]
  rfl

end Rewrite

/-! ### The whole body -/

/-- A body within the limit is renamed, a larger one is refused. -/
theorem canonicalizeValues_eq (hids : function.ids.Nodup)
    (hterminator : ∀ block ∈ function.blocks, ∃ t, block.terminators = [t])
    (hclosed : ∀ x ∈ function.operands, x ∈ function.ids) :
    canonicalizeValues function.parameters function.blocks
      = if valueCount function ≤ maxValuesPerFunction then
          .ok ((function.rename (position function.ids)).parameters,
            (function.rename (position function.ids)).blocks)
        else .error (Diagnostic.error "ZRYNA-M2201" none
          "control-flow lowering exceeds the deterministic IR value limit"
          "reduce expressions and live mutable state before semantic analysis") := by
  have hcount : bodyCount function.parameters function.blocks = valueCount function := rfl
  unfold canonicalizeValues
  rw [hcount]
  split
  · next hover => rw [if_neg (Nat.not_le.mpr hover)]
  · next hfits =>
    rw [if_pos (Nat.le_of_not_lt hfits)]
    obtain ⟨numbering, hrun, hmapping⟩ := defineFunction_eq hids
    rw [hrun]
    have hblocks : (function.blocks.map (renameDefinitions (position function.ids))).mapM
        (rewriteBlock fun value => (numbering.mapping[value]?).join)
          = .ok (function.blocks.map (Block.rename (position function.ids))) := by
      rw [mapM_map]
      refine mapM_eq_pure fun block hb => ?_
      obtain ⟨t, ht⟩ := hterminator block hb
      refine rewriteBlock_eq ht (fun i hi x hx => hmapping x (hclosed x ?_))
        fun x hx => hmapping x (hclosed x ?_)
      · exact mem_flatMap.mpr
          ⟨block, hb, mem_append_left _ (mem_flatMap.mpr ⟨i, hi, hx⟩)⟩
      · refine mem_flatMap.mpr ⟨block, hb, mem_append_right _ ?_⟩
        exact mem_flatMap.mpr ⟨t, ht ▸ mem_singleton_self t, hx⟩
    dsimp only
    rw [hblocks]
    rfl

theorem length_ids (function : Function) : function.ids.length = valueCount function := by
  rw [ids_eq, length_map, length_located]

/-- The places of the values are the numbers below their count. -/
theorem position_bijOn (hids : function.ids.Nodup) :
    Set.BijOn (position function.ids) {x | x ∈ function.ids} (Set.Iio (valueCount function)) := by
  rw [← length_ids]
  refine ⟨fun x hx => idxOf_lt_length_iff.mpr hx, fun x hx y hy h => ?_, fun n hn => ?_⟩
  · exact (idxOf_inj hx).mp h
  · exact ⟨function.ids[n], getElem_mem hn, hids.idxOf_getElem n hn⟩

/-- The new numbers follow the order of the definitions. -/
theorem ids_rename_position (hids : function.ids.Nodup) :
    (function.rename (position function.ids)).ids = List.range (valueCount function) := by
  rw [ids_rename, ← length_ids]
  refine ext_getElem (by simp) fun n hn hn' => ?_
  rw [getElem_map, getElem_range]
  exact hids.idxOf_getElem n _

end Zryna.Semantics.ControlFlow
