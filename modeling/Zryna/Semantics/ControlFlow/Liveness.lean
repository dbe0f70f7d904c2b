import Zryna.Foundation.Checked
import Zryna.Semantics.ControlFlow.Prune

/-!
# What the pruning keeps

`Live` says which values are needed. In a body in SSA form the table of marks holds exactly the
live values (`getD_liveTable`), so the pruned body is the body thinned to its live parameters
(`pruneDeadBlockParameters_eq`). Live values that are defined stay defined, which covers all
operands that stay (`closed_of_ssa`).
-/

namespace Zryna.Semantics.ControlFlow

open Zryna.Ir.ControlFlow List

/-- What a terminator reads besides the arguments of its edges. -/
def terminatorUses : Terminator → List ℕ
  | .return value => [value]
  | .jump .. => []
  | .branch condition .. => [condition]

/-- The values that are needed: those that an instruction, a return or a branch condition uses,
and those that are passed to a parameter that is needed. -/
inductive Live (function : Function) : ℕ → Prop
  | instruction {block : Block} {i : Instruction} {x : ℕ} (hb : block ∈ function.blocks)
      (hi : i ∈ block.instructions) (hx : x ∈ instructionOperands i.kind) : Live function x
  | terminator {block : Block} {t : SpannedTerminator} {x : ℕ} (hb : block ∈ function.blocks)
      (ht : t ∈ block.terminators) (hx : x ∈ terminatorUses t.kind) : Live function x
  | passed {e : Edge} {target : Block} {parameter : ValueDefinition} {x : ℕ}
      (he : e ∈ function.edges) (ht : function.blocks[e.target]? = some target)
      (hpair : (parameter, x) ∈ target.parameters.zip e.arguments)
      (hlive : Live function parameter.id) : Live function x

/-! ### The marks -/

def blockUses (block : Block) : List ℕ :=
  block.instructions.flatMap (fun i => instructionOperands i.kind)
    ++ block.terminators.head?.elim [] fun t => terminatorUses t.kind

theorem markBlock_eq (live : List Bool) (block : Block) :
    markBlock live block = markAll live (blockUses block) := by
  unfold markBlock blockUses markAll
  rw [foldl_append, foldl_flatMap]
  cases block.terminators.head? with
  | none => rfl
  | some terminator => cases hkind : terminator.kind <;> simp [hkind, terminatorUses] <;> rfl

theorem markUses_eq (blocks : List Block) : markUses blocks
    = markAll (List.replicate (tableSize blocks) false) (blocks.flatMap blockUses) := by
  unfold markUses markAll
  rw [foldl_flatMap]
  congr 1
  ext live block : 2
  exact markBlock_eq live block

@[simp] theorem length_markUses (blocks : List Block) :
    (markUses blocks).length = tableSize blocks := by
  rw [markUses_eq, length_markAll, length_replicate]

variable {blocks : List Block} {x p b : ℕ} {block : Block} {d : ValueDefinition} {kind : Terminator}

theorem getD_markUses : (markUses blocks).getD x false = true
    ↔ x ∈ blocks.flatMap blockUses ∧ x < tableSize blocks := by
  rw [markUses_eq, getD_markAll, length_replicate]
  refine or_iff_right fun h => ?_
  rw [getD_eq_true, getElem?_replicate] at h
  split at h <;> cases h

theorem lt_tableSize (hb : block ∈ blocks) (hd : d ∈ block.parameters) : d.id < tableSize blocks :=
  lt_elim_max? (mem_flatMap.mpr
    ⟨block, hb, mem_append_left _ (mem_map_of_mem hd)⟩)

theorem mem_edgeRules {target : ℕ} {arguments : List ℕ} :
    (p, x) ∈ edgeRules blocks target arguments ↔ ∃ block, blocks[target]? = some block
      ∧ ∃ parameter, (parameter, x) ∈ block.parameters.zip arguments ∧ parameter.id = p := by
  unfold edgeRules
  cases blocks[target]? with
  | none => simp
  | some block => simp [and_comm]

/-- The edges of a terminator lead to the same targets from every block. -/
theorem exists_edgesOf {P : ℕ → List ℕ → Prop} (b c : ℕ) :
    (∃ e ∈ edgesOf b kind, P e.target e.arguments)
      ↔ ∃ e ∈ edgesOf c kind, P e.target e.arguments := by
  cases kind <;> simp [edgesOf]

variable {function : Function}

/-- The implications are those of the edges. -/
theorem mem_passRules (h : SsaBody function) : (p, x) ∈ passRules function.blocks
    ↔ ∃ e ∈ function.edges, ∃ target, function.blocks[e.target]? = some target
      ∧ ∃ parameter, (parameter, x) ∈ target.parameters.zip e.arguments ∧ parameter.id = p := by
  unfold passRules
  rw [mem_flatMap]
  constructor
  · rintro ⟨block, hblock, hrule⟩
    obtain ⟨t, ht⟩ := h.terminator block hblock
    obtain ⟨b, hb⟩ := mem_iff_getElem?.mp hblock
    rw [blockRules, ht] at hrule
    obtain ⟨e, he, hrule⟩ := (exists_edgesOf (P := fun target arguments =>
      (p, x) ∈ edgeRules function.blocks target arguments) 0 b).mp (mem_flatMap.mp hrule)
    exact ⟨e, mem_edges hb ht he, mem_edgeRules.mp hrule⟩
  · rintro ⟨e, he, hrule⟩
    obtain ⟨⟨block, b⟩, hmem, he⟩ := mem_flatMap.mp he
    have hblock : block ∈ function.blocks := fst_mem_of_mem_zipIdx hmem
    obtain ⟨t, ht⟩ := h.terminator block hblock
    refine ⟨block, hblock, ?_⟩
    rw [blockEdges, ht] at he
    rw [blockRules, ht]
    exact mem_flatMap.mpr ((exists_edgesOf (P := fun target arguments =>
      (p, x) ∈ edgeRules function.blocks target arguments) b 0).mp
        ⟨e, he, mem_edgeRules.mpr hrule⟩)

theorem mem_blockUses (h : SsaBody function) (hb : block ∈ function.blocks)
    : x ∈ blockUses block ↔ (∃ i ∈ block.instructions, x ∈ instructionOperands i.kind)
      ∨ ∃ t ∈ block.terminators, x ∈ terminatorUses t.kind := by
  obtain ⟨t, ht⟩ := h.terminator block hb
  rw [blockUses, ht, mem_append, mem_flatMap]
  simp

/-- The table holds the live values. -/
theorem getD_liveTable (h : SsaBody function) :
    (liveTable function.blocks).getD x false = true
      ↔ x < tableSize function.blocks ∧ Live function x := by
  rw [liveTable, propagateLoop_eq, getD_saturate, length_markUses]
  constructor
  · intro hx
    refine ⟨hx.lt, ?_⟩
    induction hx with
    | seed hx hlt =>
      obtain ⟨block, hb, hx⟩ := mem_flatMap.mp (getD_markUses.mp hx).1
      obtain ⟨i, hi, hx⟩ | ⟨t, ht, hx⟩ := (mem_blockUses h hb).mp hx
      · exact .instruction hb hi hx
      · exact .terminator hb ht hx
    | child hu hx hlt ih =>
      obtain ⟨e, he, target, ht, parameter, hpair, rfl⟩ :=
        (mem_passRules h).mp (mem_consequences.mp hx)
      exact .passed he ht hpair ih
  · rintro ⟨hlt, hlive⟩
    induction hlive with
    | instruction hb hi hx =>
      have huse := (mem_blockUses h hb).mpr (.inl ⟨_, hi, hx⟩)
      exact .seed (getD_markUses.mpr ⟨mem_flatMap.mpr ⟨_, hb, huse⟩, hlt⟩) hlt
    | terminator hb ht hx =>
      have huse := (mem_blockUses h hb).mpr (.inr ⟨_, ht, hx⟩)
      exact .seed (getD_markUses.mpr ⟨mem_flatMap.mpr ⟨_, hb, huse⟩, hlt⟩) hlt
    | @passed e target parameter x he ht hpair hlive ih =>
      -- a parameter is defined by a block, and so it is in the table
      have hp : parameter.id < tableSize function.blocks :=
        lt_tableSize (mem_of_getElem? ht) (of_mem_zip hpair).1
      refine .child (ih hp) (mem_consequences.mpr ((mem_passRules h).mpr ?_)) hlt
      exact ⟨e, he, target, ht, parameter, hpair, rfl⟩

/-- What the pruning keeps. -/
def keeps (blocks : List Block) (x : ℕ) : Bool := (liveTable blocks).getD x false

theorem keeps_iff (h : SsaBody function) (hb : block ∈ function.blocks)
    (hd : d ∈ block.parameters) : keeps function.blocks d.id = true ↔ Live function d.id := by
  rw [keeps, getD_liveTable h]
  exact and_iff_right (lt_tableSize hb hd)

/-! ### The pruned blocks -/

theorem retain_eq {α : Type} {keep : ℕ → Bool} {parameters : List ValueDefinition} {xs : List α}
    (h : xs.length ≤ parameters.length) :
    retain (parameters.map fun d => keep d.id) xs = some (alongside keep parameters xs) := by
  induction xs generalizing parameters with
  | nil => cases parameters <;> rfl
  | cons x xs ih =>
    cases parameters with
    | nil => exact absurd h (Nat.not_succ_le_zero _)
    | cons d parameters =>
      rw [map_cons, retain, ih (Nat.le_of_succ_le_succ h), alongside_cons]
      rfl

variable {e : Edge}

theorem filterArguments_eq (h : SsaBody function) (he : e ∈ function.edges) :
    filterArguments (keepMasks (liveTable function.blocks) function.blocks) e.target e.arguments
      = some (thinArguments (keeps function.blocks) function.blocks e.target e.arguments) := by
  obtain ⟨target, ht, htypes⟩ := h.edge e he
  have hlen : e.arguments.length = target.parameters.length := by
    simpa using congrArg List.length htypes
  rw [filterArguments, keepMasks, thinArguments, getElem?_map, ht, Option.map_some,
    Option.bind_some]
  exact @retain_eq _ (keeps function.blocks) _ _ hlen.le

theorem filterTerminator_eq (h : SsaBody function)
    (hedges : ∀ e ∈ edgesOf b kind, e ∈ function.edges) :
    filterTerminator (keepMasks (liveTable function.blocks) function.blocks) kind
      = some (kind.thin (keeps function.blocks) function.blocks) := by
  cases kind with
  | «return» value => rfl
  | jump target arguments =>
    rw [filterTerminator, filterArguments_eq h (hedges ⟨b, target, arguments⟩ (by simp [edgesOf]))]
    rfl
  | branch condition trueTarget trueArguments falseTarget falseArguments =>
    rw [filterTerminator,
      filterArguments_eq h (hedges ⟨b, trueTarget, trueArguments⟩ (by simp [edgesOf])),
      filterArguments_eq h (hedges ⟨b, falseTarget, falseArguments⟩ (by simp [edgesOf]))]
    rfl

/-- The pruning does not abort, and it thins the body to its live parameters. -/
theorem pruneDeadBlockParameters_eq (h : SsaBody function) :
    pruneDeadBlockParameters function.blocks
      = some (function.thin (keeps function.blocks)).blocks := by
  have hparameters : (function.blocks.zip
      (keepMasks (liveTable function.blocks) function.blocks)).mapM retainParameters
        = some (function.blocks.map fun block =>
          { block with parameters := block.parameters.filter fun d => keeps function.blocks d.id }) := by
    rw [keepMasks, ← map_prod_left_eq_zip, mapM_map]
    refine Checked.mapM_eq_pure fun block _ => ?_
    have hself := @alongside_self (keeps function.blocks) _ block.parameters id
    rw [map_id, map_id] at hself
    rw [Function.comp_apply, retainParameters]
    dsimp only
    rw [show (block.parameters.map fun d => (liveTable function.blocks).getD d.id false)
      = block.parameters.map fun d => keeps function.blocks d.id from rfl, retain_eq le_rfl, hself]
    rfl
  unfold pruneDeadBlockParameters
  dsimp only
  rw [hparameters, Option.bind_eq_bind, Option.bind_some, mapM_map]
  refine Checked.mapM_eq_pure fun block hblock => ?_
  obtain ⟨t, ht⟩ := h.terminator block hblock
  obtain ⟨b, hb⟩ := mem_iff_getElem?.mp hblock
  have hedges : ∀ e ∈ edgesOf b t.kind, e ∈ function.edges := fun e he => mem_edges hb ht he
  rw [Function.comp_apply, filterBlock]
  dsimp only
  rw [ht]
  dsimp only
  rw [filterTerminator_eq h hedges, Block.thin, ht]
  rfl

/-! ### Operands of the pruned body -/

theorem mem_ids_of_live (h : SsaBody function) (hdefined : x ∈ function.ids)
    (hlive : Live function x) : x ∈ (function.thin (keeps function.blocks)).ids := by
  obtain ⟨d, hd, rfl⟩ := mem_map.mp hdefined
  refine mem_map_of_mem (mem_definitions_thin.mpr ?_)
  rcases mem_append.mp hd with hd | hd
  · exact .inl hd
  · obtain ⟨block, hb, hd⟩ := mem_flatMap.mp hd
    rcases mem_append.mp hd with hd | hd
    · exact .inr ⟨block, hb, .inl ⟨hd, (keeps_iff h hb hd).mpr hlive⟩⟩
    · exact .inr ⟨block, hb, .inr (mem_map.mp hd)⟩

theorem mem_ids_of_definedAt {k : ℕ} (hx : function.DefinedAt x b k) : x ∈ function.ids := by
  obtain ⟨entry, he, rfl, -⟩ := hx
  rw [ids_eq]
  exact mem_map_of_mem he

variable (h : SsaBody function)

include h

/-- What is passed to the parameters that stay is live, and defined. -/
theorem live_of_mem_thinArguments (he : e ∈ function.edges)
    (hx : x ∈ thinArguments (keeps function.blocks) function.blocks e.target e.arguments) :
    Live function x ∧ x ∈ e.arguments := by
  obtain ⟨target, ht, -⟩ := h.edge e he
  rw [thinArguments, ht] at hx
  obtain ⟨⟨parameter, _⟩, hpair, rfl⟩ := mem_map.mp hx
  obtain ⟨hpair, hkeep⟩ := mem_filter.mp hpair
  obtain ⟨hparameter, hargument⟩ := of_mem_zip hpair
  have hlive := (keeps_iff h (mem_of_getElem? ht) hparameter).mp hkeep
  exact ⟨.passed he ht hpair hlive, hargument⟩

theorem live_of_mem_terminatorOperands
    (hb : function.blocks[b]? = some block) {t : SpannedTerminator} (ht : block.terminators = [t])
    (hx : x ∈ terminatorOperands (t.kind.thin (keeps function.blocks) function.blocks)) :
    Live function x ∧ x ∈ terminatorOperands t.kind := by
  have hmem := mem_of_getElem? hb
  have hedges : ∀ e ∈ edgesOf b t.kind, e ∈ function.edges := fun e he => mem_edges hb ht he
  have huse : ∀ x ∈ terminatorUses t.kind, Live function x := fun x hx =>
    .terminator hmem (ht ▸ mem_singleton_self t) hx
  cases hkind : t.kind with
  | «return» value =>
    rw [hkind] at hx huse
    exact ⟨huse x hx, hx⟩
  | jump target arguments =>
    rw [hkind] at hx hedges
    exact live_of_mem_thinArguments h (hedges ⟨b, target, arguments⟩ (by simp [edgesOf])) hx
  | branch condition trueTarget trueArguments falseTarget falseArguments =>
    rw [hkind] at hx huse hedges
    simp only [Terminator.thin, terminatorOperands, mem_cons, mem_append] at hx ⊢
    obtain rfl | hx | hx := hx
    · exact ⟨huse x (mem_singleton_self x), .inl rfl⟩
    · have hedge := hedges ⟨b, trueTarget, trueArguments⟩ (by simp [edgesOf])
      exact (live_of_mem_thinArguments h hedge hx).imp id fun hx => .inr (.inl hx)
    · have hedge := hedges ⟨b, falseTarget, falseArguments⟩ (by simp [edgesOf])
      exact (live_of_mem_thinArguments h hedge hx).imp id fun hx => .inr (.inr hx)

/-- Every operand of the pruned body is defined in it. -/
theorem closed_of_ssa :
    ∀ x ∈ (function.thin (keeps function.blocks)).operands,
      x ∈ (function.thin (keeps function.blocks)).ids := by
  intro x hx
  obtain ⟨block', hblock', hx⟩ := mem_flatMap.mp hx
  obtain ⟨block, hblock, rfl⟩ := mem_map.mp hblock'
  obtain ⟨b, hb⟩ := mem_iff_getElem?.mp hblock
  rcases mem_append.mp hx with hx | hx
  · obtain ⟨i, hi, hx⟩ := mem_flatMap.mp hx
    obtain ⟨k, hk⟩ := mem_iff_getElem?.mp hi
    have hdefined := mem_ids_of_definedAt (h.instruction_use b block hb k i hk x hx)
    exact mem_ids_of_live h hdefined (.instruction hblock hi hx)
  · obtain ⟨t', ht', hx⟩ := mem_flatMap.mp hx
    obtain ⟨t, ht, rfl⟩ := mem_map.mp ht'
    obtain ⟨s, hs⟩ := h.terminator block hblock
    obtain rfl : t = s := mem_singleton.mp (hs ▸ ht)
    obtain ⟨hlive, hoperand⟩ := live_of_mem_terminatorOperands h hb hs hx
    exact mem_ids_of_live h (mem_ids_of_definedAt (h.terminator_use b block hb t hs x hoperand))
      hlive

end Zryna.Semantics.ControlFlow
