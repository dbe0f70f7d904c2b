import Zryna.Ir.ControlFlow.Soundness

/-!
# Function bodies in SSA form

`WellFormed` describes verified functions, whose values are numbered densely in the order of their
definitions. A body that is still being lowered is only in SSA form: every value has one
definition, a definition of each operand dominates its use, and the arguments of an edge match the
parameters of its target in number and type (`SsaBody`). Values carry arbitrary numbers.

In such a body the machine never reads a value that is not bound: `Bound` holds along every run
(`Bound.enter`, `Bound.define`, `Bound.takeEdge`), so every operand can be read
(`Bound.readOperands`).
-/

namespace Zryna.Ir.ControlFlow

open List

section

variable (function : Function)

/-- The values a function defines, in the order of their definitions. -/
def Function.ids : List ℕ := function.definitions.map ValueDefinition.id

/-- An edge leads from one block to another. -/
def Function.Flows (u v : ℕ) : Prop :=
  ∃ e ∈ function.edges, e.source = u ∧ e.target = v

/-- A definition has been passed on every path from the entry to a position of a block. -/
def Function.Passed (entry : ValueDefinition × DefinitionLocation) (block position : ℕ) : Prop :=
  Available (Dominates function.Flows 0) (valueInfo entry) block position

/-- A definition of `id` dominates a position of a block. -/
def Function.DefinedAt (id block position : ℕ) : Prop :=
  ∃ entry ∈ function.located, entry.1.id = id ∧ function.Passed entry block position

end

structure SsaBody (function : Function) : Prop where
  distinct : function.ids.Nodup
  entry_parameters : ∀ block : Block, function.blocks[0]? = some block → block.parameters = []
  terminator : ∀ block ∈ function.blocks, ∃ t, block.terminators = [t]
  edge : ∀ e ∈ function.edges, ∃ target, function.blocks[e.target]? = some target
    ∧ e.arguments.map function.declaredType
      = (target.parameters.map ValueDefinition.ty).map some
  instruction_use : ∀ (b : ℕ) (block : Block), function.blocks[b]? = some block →
    ∀ (k : ℕ) (i : Instruction), block.instructions[k]? = some i →
      ∀ x ∈ instructionOperands i.kind, function.DefinedAt x b k
  terminator_use : ∀ (b : ℕ) (block : Block), function.blocks[b]? = some block →
    ∀ t : SpannedTerminator, block.terminators = [t] →
      ∀ x ∈ terminatorOperands t.kind, function.DefinedAt x b block.instructions.length

variable {function : Function}

theorem ids_eq (function : Function) :
    function.ids = function.located.map fun entry => entry.1.id := by
  rw [Function.ids, Function.definitions_eq, map_map]
  rfl

theorem declaredType_of_mem (h : function.ids.Nodup) {d : ValueDefinition}
    (hd : d ∈ function.definitions) : function.declaredType d.id = some d.ty := by
  unfold Function.declaredType
  cases hfind : function.definitions.find? fun e => e.id = d.id with
  | none => exact absurd (find?_eq_none.mp hfind d hd) (by simp)
  | some e =>
    have hid : e.id = d.id := by simpa using find?_some hfind
    rw [inj_on_of_nodup_map h (mem_of_find?_eq_some hfind) hd hid]
    rfl

namespace SsaBody

variable {entry entry' : ValueDefinition × DefinitionLocation}

theorem located_unique (h : SsaBody function) (he : entry ∈ function.located)
    (he' : entry' ∈ function.located) (hid : entry.1.id = entry'.1.id) : entry = entry' :=
  inj_on_of_nodup_map (ids_eq function ▸ h.distinct) he he' hid

theorem declaredType (h : SsaBody function) (he : entry ∈ function.located) :
    function.declaredType entry.1.id = some entry.1.ty := by
  refine declaredType_of_mem h.distinct ?_
  rw [Function.definitions_eq]
  exact mem_map_of_mem he

/-- The entry block is dominated by nothing else. -/
theorem dominates_entry {d : ℕ} (h : Dominates function.Flows 0 d 0) : d = 0 := by
  by_contra hne
  exact h ⟨hne, Relation.ReflTransGen.refl⟩

end SsaBody

/-! ### Bound values -/

/-- Every value whose definition has been passed is bound, to a value of its type. -/
def Bound (function : Function) (env : Env) (block position : ℕ) : Prop :=
  ∀ entry ∈ function.located, function.Passed entry block position →
    ∃ value, env entry.1.id = some value ∧ value.ty = entry.1.ty

theorem bindParameters_apply {parameters : List ValueDefinition} {values : List Value}
    {env env' : Env} (h : bindParameters parameters values env = some env') (x : ℕ) :
    (x ∉ parameters.map ValueDefinition.id ∧ env' x = env x)
      ∨ ∃ d ∈ parameters, d.id = x ∧ ∃ value, env' x = some value ∧ value.ty = d.ty := by
  unfold bindParameters at h
  split at h
  · next hty =>
    cases h
    rcases bindAll_apply ((parameters.map ValueDefinition.id).zip values) env x with
      ⟨hnot, heq⟩ | ⟨value, hv, heq⟩
    · rw [map_fst_zip_of_types hty] at hnot
      exact .inl ⟨hnot, heq⟩
    · obtain ⟨d, hd, hid, hdty⟩ := exists_of_mem_zip hty hv
      exact .inr ⟨d, hd, hid, value, heq, hdty.symm⟩
  · cases h

namespace Bound

variable {env env' : Env} {b k : ℕ} {block : Block}

theorem readOperand (h : SsaBody function) (henv : Bound function env b k) {x : ℕ}
    (hx : function.DefinedAt x b k) :
    ∃ value, readOperand function env x = some value
      ∧ some value.ty = function.declaredType x := by
  obtain ⟨entry, he, rfl, hpassed⟩ := hx
  obtain ⟨value, hvalue, hty⟩ := henv entry he hpassed
  have hdeclared : function.declaredType entry.1.id = some value.ty := by
    rw [h.declaredType he, hty]
  refine ⟨value, ?_, hdeclared.symm⟩
  simp [ControlFlow.readOperand, hvalue, hdeclared]

theorem readOperands (h : SsaBody function) (henv : Bound function env b k) {xs : List ℕ}
    (hxs : ∀ x ∈ xs, function.DefinedAt x b k) :
    ∃ values, readOperands function env xs = some values
      ∧ (values.map Value.ty).map some = xs.map function.declaredType := by
  induction xs with
  | nil => exact ⟨[], rfl, rfl⟩
  | cons x xs ih =>
    obtain ⟨hx, hxs⟩ := forall_mem_cons.mp hxs
    obtain ⟨value, hvalue, hty⟩ := henv.readOperand h hx
    obtain ⟨values, hvalues, htys⟩ := ih hxs
    refine ⟨value :: values, ?_, ?_⟩
    · rw [ControlFlow.readOperands, hvalue, hvalues]
      rfl
    · simp only [map_cons, hty, htys]

theorem enter (h : SsaBody function) {arguments : List Value}
    (hbind : bindParameters function.parameters arguments (fun _ => none) = some env) :
    Bound function env 0 0 := by
  intro entry he hpassed
  obtain ⟨d, location⟩ := entry
  -- only the parameters of the function have been passed at the entry
  have hmem : d ∈ function.parameters := by
    have hlocated := mem_located.mp he
    unfold Function.Passed Available at hpassed
    cases location with
    | parameter => exact hlocated
    | blockParameter b =>
      obtain ⟨block, hb, hd⟩ := hlocated
      obtain rfl := SsaBody.dominates_entry hpassed
      rw [h.entry_parameters block hb] at hd
      exact absurd hd not_mem_nil
    | instruction b k =>
      dsimp only [valueInfo] at hpassed
      split at hpassed
      · exact absurd hpassed (Nat.not_lt_zero k)
      · next hne => exact absurd (SsaBody.dominates_entry hpassed) hne
  rcases bindParameters_apply hbind d.id with ⟨hnot, -⟩ | ⟨d', hd', hid, value, heq, hty⟩
  · exact absurd (mem_map_of_mem hmem) hnot
  · have hsame := h.located_unique (mem_located.mpr hd' : (d', .parameter) ∈ _) he hid
    exact ⟨value, heq, hty.trans (congrArg (fun entry => entry.1.ty) hsame)⟩

/-- Nothing but the result lies between an instruction and the next position. -/
theorem define (h : SsaBody function) (hb : function.blocks[b]? = some block) {i : Instruction}
    (hi : block.instructions[k]? = some i) (henv : Bound function env b k) {value : Value}
    (hty : value.ty = i.result.ty) :
    Bound function (Function.update env i.result.id (some value)) b (k + 1) := by
  have hresult : (i.result, DefinitionLocation.instruction b k) ∈ function.located :=
    mem_located.mpr ⟨block, i, hb, hi, rfl⟩
  intro entry he hpassed
  by_cases hid : entry.1.id = i.result.id
  · obtain rfl := h.located_unique he hresult hid
    exact ⟨value, Function.update_self .., hty⟩
  · rw [Function.update_of_ne hid]
    refine henv entry he ?_
    obtain ⟨d, location⟩ := entry
    unfold Function.Passed Available at hpassed ⊢
    cases location with
    | parameter => trivial
    | blockParameter c => exact hpassed
    | instruction c p =>
      dsimp only [valueInfo] at hpassed ⊢
      split at hpassed
      · next hc =>
        subst hc
        rw [if_pos rfl]
        refine Nat.lt_of_le_of_ne (Nat.le_of_lt_succ hpassed) ?_
        rintro rfl
        obtain ⟨block', i', hb', hi', rfl⟩ := mem_located.mp he
        obtain rfl : block = block' := Option.some.inj (hb.symm.trans hb')
        obtain rfl : i = i' := Option.some.inj (hi.symm.trans hi')
        exact hid rfl
      · next hc => rwa [if_neg hc]

/-- A definition that has been passed at the target of an edge is a parameter of the target, or
has been passed at the source. -/
theorem passed_edge {entry : ValueDefinition × DefinitionLocation} {e : Edge}
    (hb : function.blocks[e.source]? = some block) (he : e ∈ function.edges)
    (hentry : entry ∈ function.located) (hpassed : function.Passed entry e.target 0) :
    entry.2 = .blockParameter e.target
      ∨ function.Passed entry e.source block.instructions.length := by
  obtain ⟨d, location⟩ := entry
  have hedge : function.Flows e.source e.target := ⟨e, he, rfl, rfl⟩
  unfold Function.Passed Available at hpassed ⊢
  cases location with
  | parameter => exact .inr trivial
  | blockParameter c =>
    by_cases hc : c = e.target
    · exact .inl (congrArg _ hc)
    · exact .inr (Dominates.pred hpassed hc hedge)
  | instruction c p =>
    dsimp only [valueInfo] at hpassed ⊢
    split at hpassed
    · exact absurd hpassed (Nat.not_lt_zero p)
    · next hc =>
      right
      split
      · next hsource =>
        obtain ⟨block', i, hb', hi, -⟩ := mem_located.mp hentry
        rw [hsource, hb, Option.some.injEq] at hb'
        exact hb' ▸ (List.getElem?_eq_some_iff.mp hi).1
      · exact Dominates.pred hpassed hc hedge

theorem takeEdge (h : SsaBody function) {e : Edge} {target : Block}
    (hb : function.blocks[e.source]? = some block) (he : e ∈ function.edges)
    (ht : function.blocks[e.target]? = some target)
    (henv : Bound function env e.source block.instructions.length) {values : List Value}
    (hbind : bindParameters target.parameters values env = some env') :
    Bound function env' e.target 0 := by
  intro entry hentry hpassed
  rcases bindParameters_apply hbind entry.1.id with ⟨hnot, heq⟩ | ⟨d, hd, hid, value, heq, hty⟩
  · rw [heq]
    refine henv entry hentry ((passed_edge hb he hentry hpassed).resolve_left fun hlocation => ?_)
    obtain ⟨d, location⟩ := entry
    obtain rfl : location = .blockParameter e.target := hlocation
    obtain ⟨target', ht', hd⟩ := mem_located.mp hentry
    obtain rfl : target = target' := Option.some.inj (ht.symm.trans ht')
    exact hnot (mem_map_of_mem hd)
  · have hlocated : (d, DefinitionLocation.blockParameter e.target) ∈ function.located :=
      mem_located.mpr ⟨target, ht, hd⟩
    have hsame := h.located_unique hlocated hentry hid
    exact ⟨value, heq, hty.trans (congrArg (fun entry => entry.1.ty) hsame)⟩

end Bound

end Zryna.Ir.ControlFlow
