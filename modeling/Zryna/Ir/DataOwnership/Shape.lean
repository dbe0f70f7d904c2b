import Zryna.Ir.DataOwnership.Verify

/-!
# What the structure checks establish

`verify` accepts a program when every phase reports nothing. `Accepted` is what the later files
start from: a function of an accepted program whose structure and whose graph are clean, together
with the borrow index found for it. `Accepted.shape` reads the structure checks back as facts about
identities, places, plans and edges.
-/

namespace Zryna.Ir.DataOwnership

open Layout Report List

/-! ### Phases -/

@[simp] theorem clean_ifClean {α β : Type} (m : Check α) (otherwise : β) (next : α → Check β) :
    (ifClean m otherwise next).Clean ↔ m.Clean ∧ (next m.value).Clean := by
  unfold ifClean Clean
  by_cases h : m.events = [] <;> simp [h]

theorem value_ifClean {α β : Type} {m : Check α} (otherwise : β) (next : α → Check β)
    (h : m.Clean) : (ifClean m otherwise next).value = (next m.value).value := by
  unfold ifClean
  exact congrArg Report.value (if_pos h)

theorem phase_eq_ok {α : Type} {check : Check α} {a : α} (h : phase check = .ok a) :
    check.Clean ∧ check.value = a := by
  unfold phase at h
  split at h
  · exact ⟨‹_›, by simpa using h⟩
  · simp at h

/-! ### Accepted functions -/

structure Accepted (sources : SourceMap) (layouts : VerifiedLayouts) (types : CloneTypes)
    (module : Module) (functionIndex : ℕ) (function : Function) (borrows : BorrowIndex) : Prop where
  structure_clean :
    (verifyFunctionStructure module functionIndex function sources layouts).Clean
  graph_clean :
    (verifyFunctionGraph function layouts types (BorrowIndex.new function layouts)).Clean
  borrows_eq :
    (verifyFunctionGraph function layouts types (BorrowIndex.new function layouts)).value = borrows

section Walk

variable {sources : SourceMap} {layouts : VerifiedLayouts} {types : CloneTypes}

theorem clean_verifyFunctions {module : Module} {functions : List Function} :
    ∀ {earlier : Check Unit} {functionIndex : ℕ} {indices : List BorrowIndex},
      (verifyFunctions module sources layouts types earlier functions functionIndex indices).Clean →
      earlier.Clean ∧ ∃ found,
        (verifyFunctions module sources layouts types earlier functions functionIndex
          indices).value = indices ++ found
        ∧ ∀ i function, functions[i]? = some function → ∃ borrows, found[i]? = some borrows
          ∧ Accepted sources layouts types module (functionIndex + i) function borrows := by
  induction functions with
  | nil =>
    intro earlier functionIndex indices h
    simp only [verifyFunctions, clean_bind, clean_pure, and_true] at h
    exact ⟨h, [], by simp [verifyFunctions], by simp⟩
  | cons function functions ih =>
    intro earlier functionIndex indices h
    simp only [verifyFunctions, clean_ifClean] at h
    obtain ⟨hfunction, hrest⟩ := h
    have hclean := hfunction
    simp only [verifyFunction, clean_ifClean, clean_bind] at hclean
    obtain ⟨⟨hearlier, hstructure⟩, hgraph⟩ := hclean
    have hvalue : (verifyFunction earlier module functionIndex function sources layouts types).value
        = (verifyFunctionGraph function layouts types (BorrowIndex.new function layouts)).value := by
      unfold verifyFunction
      rw [value_ifClean]
      exact (clean_bind _ _).mpr ⟨hearlier, hstructure⟩
    obtain ⟨-, found, hfound, hall⟩ := ih hrest
    refine ⟨hearlier, (verifyFunction earlier module functionIndex function sources layouts
      types).value :: found, ?_, ?_⟩
    · rw [verifyFunctions, value_ifClean _ _ hfunction, hfound, append_assoc]
      rfl
    · intro i other hi
      cases i with
      | zero =>
        obtain rfl : function = other := by simpa using hi
        exact ⟨_, rfl, hstructure, hgraph, hvalue.symm⟩
      | succ i =>
        obtain ⟨borrows, hborrows, hok⟩ := hall i other (by simpa using hi)
        exact ⟨borrows, by simpa using hborrows, by rwa [Nat.add_right_comm] at hok⟩

theorem clean_verifyModules {modules : List Module} :
    ∀ {earlier : Check Unit} {moduleIndex : ℕ} {indices : List (List BorrowIndex)},
      (verifyModules sources layouts types earlier modules moduleIndex indices).Clean →
      earlier.Clean ∧ ∃ found,
        (verifyModules sources layouts types earlier modules moduleIndex indices).value
          = indices ++ found
        ∧ ∀ m module, modules[m]? = some module → ∃ row, found[m]? = some row
          ∧ module.id = moduleIndex + m
          ∧ ∀ i function, module.functions[i]? = some function → ∃ borrows,
            row[i]? = some borrows
            ∧ Accepted sources layouts types module i function borrows := by
  induction modules with
  | nil =>
    intro earlier moduleIndex indices h
    simp only [verifyModules, clean_bind, clean_pure, and_true] at h
    exact ⟨h, [], by simp [verifyModules], by simp⟩
  | cons module modules ih =>
    intro earlier moduleIndex indices h
    -- what the rest of the walk says about every module but the first
    have hcons : ∀ {row : List BorrowIndex} {found : List (List BorrowIndex)},
        module.id = moduleIndex →
        (∀ i function, module.functions[i]? = some function → ∃ borrows, row[i]? = some borrows
          ∧ Accepted sources layouts types module i function borrows) →
        (∀ m other, modules[m]? = some other → ∃ row, found[m]? = some row
          ∧ other.id = moduleIndex + 1 + m
          ∧ ∀ i function, other.functions[i]? = some function → ∃ borrows, row[i]? = some borrows
            ∧ Accepted sources layouts types other i function borrows) →
        ∀ m other, (module :: modules)[m]? = some other → ∃ r, (row :: found)[m]? = some r
          ∧ other.id = moduleIndex + m
          ∧ ∀ i function, other.functions[i]? = some function → ∃ borrows, r[i]? = some borrows
            ∧ Accepted sources layouts types other i function borrows := by
      intro row found hid hfirst hrest m other hm
      cases m with
      | zero =>
        obtain rfl : module = other := by simpa using hm
        exact ⟨row, rfl, hid, hfirst⟩
      | succ m =>
        obtain ⟨r, hr, hother, hall⟩ := hrest m other (by simpa using hm)
        exact ⟨r, by simpa using hr, by omega, hall⟩
    have hheader : ∀ {header : Check Unit},
        header = (do earlier; verifyModuleHeader module moduleIndex sources) → header.Clean →
        earlier.Clean ∧ module.id = moduleIndex := by
      intro header hheader hclean
      rw [hheader, clean_bind, verifyModuleHeader, clean_pushIf] at hclean
      exact ⟨hclean.1, by by_contra hne; exact hclean.2 (.inl hne)⟩
    rw [verifyModules] at h
    split at h
    · rename_i hempty
      obtain ⟨hclean, found, hvalue, hall⟩ := ih h
      obtain ⟨hearlier, hid⟩ := hheader rfl hclean
      refine ⟨hearlier, [] :: found, ?_, hcons hid (by simp [hempty]) hall⟩
      rw [verifyModules, if_pos hempty, hvalue, append_assoc]
      rfl
    · rename_i hnonempty
      rw [clean_ifClean] at h
      obtain ⟨hfunctions, hrest⟩ := h
      obtain ⟨hclean, row, hrow, hfirst⟩ := clean_verifyFunctions hfunctions
      obtain ⟨hearlier, hid⟩ := hheader rfl hclean
      obtain ⟨-, found, hvalue, hall⟩ := ih hrest
      refine ⟨hearlier, row :: found, ?_, hcons hid (by simpa using hfirst) hall⟩
      rw [verifyModules, if_neg hnonempty, value_ifClean _ _ hfunctions, hvalue, hrow]
      simp

end Walk

/-- The phases of an accepted program report nothing. -/
structure PhasesClean (program : Program) (sources : SourceMap) (expectedEntry : FileId)
    (linear32 linuxX8664 : VerifiedLayouts) (verified : VerifiedProgram) : Prop where
  preflight_clean : (preflight program linear32).Clean
  structure_clean : (verifyStructure program sources linear32).Clean
  indices_eq : (verifyStructure program sources linear32).value = verified.borrowIndices
  calls_clean : (verifyCalls program verified.borrowIndices).Clean
  program_eq : verified.program = program
  linear32_eq : verified.linear32 = linear32

variable {expectedEntry : FileId} {linear32 linuxX8664 : VerifiedLayouts} {program : Program}
  {verified : VerifiedProgram} {module : Module}

theorem phases_of_verify {sources : SourceMap}
    (h : verify program sources expectedEntry linear32 linuxX8664 = .ok verified) :
    PhasesClean program sources expectedEntry linear32 linuxX8664 verified := by
  unfold verify at h
  simp only [bind, Except.bind] at h
  cases hpreflight : phase (preflight program linear32) with
  | error e => simp [hpreflight] at h
  | ok u =>
    cases hauthorities : phase (verifyAuthorities program sources expectedEntry linear32
        linuxX8664) with
    | error e => simp [hpreflight, hauthorities] at h
    | ok u' =>
      cases hadmit : admitBody program with
      | error e => simp [hpreflight, hauthorities, hadmit] at h
      | ok u'' =>
        cases hstructure : phase (verifyStructure program sources linear32) with
        | error e => simp [hpreflight, hauthorities, hadmit, hstructure] at h
        | ok indices =>
          cases hcalls : phase (verifyCalls program indices) with
          | error e => simp [hpreflight, hauthorities, hadmit, hstructure, hcalls] at h
          | ok u''' =>
            cases habi : phase (verifyPublicAbi program linear32) with
            | error e => simp [hpreflight, hauthorities, hadmit, hstructure, hcalls, habi] at h
            | ok abi =>
              simp only [hpreflight, hauthorities, hadmit, hstructure, hcalls, habi] at h
              obtain ⟨abi, abiIndices⟩ := abi
              cases abi with
              | none => simp at h
              | some abi =>
                simp only [Except.ok.injEq] at h
                subst h
                exact ⟨(phase_eq_ok hpreflight).1, (phase_eq_ok hstructure).1,
                  (phase_eq_ok hstructure).2, (phase_eq_ok hcalls).1, rfl, rfl⟩

/-- **Functions of accepted programs.** Each has a borrow index, and its checks are clean. -/
theorem accepted_of_verify {sources : SourceMap}
    (h : verify program sources expectedEntry linear32 linuxX8664 = .ok verified) {m i : ℕ}
    {function : Function} (hm : program.modules[m]? = some module)
    (hi : module.functions[i]? = some function) :
    ∃ row borrows, verified.borrowIndices[m]? = some row ∧ row[i]? = some borrows
      ∧ Accepted sources linear32 (cloneTypes program linear32) module i function borrows := by
  have hphases := phases_of_verify h
  obtain ⟨-, found, hfound, hall⟩ := clean_verifyModules hphases.structure_clean
  obtain ⟨row, hrow, -, hrows⟩ := hall m module hm
  obtain ⟨borrows, hborrows, haccepted⟩ := hrows i function hi
  refine ⟨row, borrows, ?_, hborrows, haccepted⟩
  rw [← hphases.indices_eq, verifyStructure, hfound, nil_append]
  exact hrow

/-! ### Identities -/

/-- The values a block defines, in the order of their identities. -/
def Block.definitions (block : Block) : List ValueDefinition :=
  block.parameters ++ block.instructions.filterMap Instruction.result

/-- The values a function defines, in the order of their identities. -/
def Function.definitions (function : Function) : List ValueDefinition :=
  function.parameters ++ function.blocks.flatMap Block.definitions

section Identities

variable {file : FileId} {sources : SourceMap} {layouts : VerifiedLayouts} {function : Function}

theorem ids_of_checkValue {values : List ValueDefinition} :
    ∀ {n : ℕ}, (values.foldlM (checkValue file sources layouts) n).Clean →
      values.map ValueDefinition.id = List.range' n values.length := by
  induction values with
  | nil => simp
  | cons value values ih =>
    intro n h
    rw [foldlM_cons, clean_bind] at h
    have hid : value.id = n := by
      have := h.1
      simp only [checkValue, clean_bind, clean_pushIf, not_not] at this
      exact this.1
    simp [range'_succ, hid, ih h.2, checkValue]

theorem value_checkValues (values : List ValueDefinition) (n : ℕ) :
    (values.foldlM (checkValue file sources layouts) n).value = n + values.length := by
  induction values generalizing n with
  | nil => simp
  | cons value values ih =>
    rw [foldlM_cons, value_bind, ih]
    simp [checkValue]
    omega

theorem value_checkInstruction (next : NextIds) (instruction : Instruction) :
    (checkInstruction file sources layouts function next instruction).value.value
      = next.value + instruction.result.toList.length := by
  cases h : instruction.result <;> cases hborrow : definedBorrow instruction.kind <;>
    simp [checkInstruction, h, hborrow, checkValue]

theorem ids_of_checkInstruction {instructions : List Instruction} :
    ∀ {next : NextIds},
      (instructions.foldlM (checkInstruction file sources layouts function) next).Clean →
      (instructions.filterMap Instruction.result).map ValueDefinition.id
          = List.range' next.value (instructions.filterMap Instruction.result).length
        ∧ (instructions.foldlM (checkInstruction file sources layouts function) next).value.value
          = next.value + (instructions.filterMap Instruction.result).length := by
  induction instructions with
  | nil => simp
  | cons instruction instructions ih =>
    intro next h
    rw [foldlM_cons, clean_bind] at h
    obtain ⟨hids, hvalue⟩ := ih h.2
    rw [value_checkInstruction] at hids hvalue
    rw [foldlM_cons, value_bind, hvalue]
    cases hresult : instruction.result with
    | none =>
      rw [hresult] at hids
      simpa [hresult] using hids
    | some result =>
      have hid : result.id = next.value := by
        have := h.1
        simp only [checkInstruction, hresult, checkValue, clean_bind, clean_pushIf,
          not_not] at this
        exact this.2.1.1
      rw [hresult] at hids
      simp only [filterMap_cons, hresult, map_cons, length_cons,
        range'_succ, hid]
      simp only [Option.toList_some, length_cons, length_nil] at hids ⊢
      exact ⟨by rw [hids], by omega⟩

theorem ids_of_checkBlock {blocks : List (Block × ℕ)} :
    ∀ {next : NextIds},
      (blocks.foldlM (checkBlock file sources layouts function) next).Clean →
      (blocks.flatMap fun entry => entry.1.definitions).map ValueDefinition.id
          = List.range' next.value (blocks.flatMap fun entry => entry.1.definitions).length := by
  induction blocks with
  | nil => simp
  | cons entry blocks ih =>
    intro next h
    obtain ⟨block, index⟩ := entry
    rw [foldlM_cons, clean_bind] at h
    have hvalue : (checkBlock file sources layouts function next (block, index)).value
        = (block.instructions.foldlM (checkInstruction file sources layouts function)
          { next with value := next.value + block.parameters.length }).value := by
      simp only [checkBlock, value_bind, value_checkValues]
      cases block.terminators <;> simp
    have hclean := h.1
    simp only [checkBlock, clean_bind, value_checkValues] at hclean
    obtain ⟨-, -, hparameters, hinstructions, -⟩ := hclean
    obtain ⟨hids, hnext⟩ := ids_of_checkInstruction hinstructions
    have hrest := ih h.2
    rw [hvalue, hnext] at hrest
    have hblock : block.definitions.map ValueDefinition.id
        = List.range' next.value block.definitions.length := by
      rw [Block.definitions, map_append, ids_of_checkValue hparameters, hids,
        length_append, range'_append_1]
    have hlength : next.value + block.parameters.length
        + (block.instructions.filterMap Instruction.result).length
          = next.value + block.definitions.length := by
      rw [Block.definitions, length_append, Nat.add_assoc]
    rw [hlength] at hrest
    rw [flatMap_cons, map_append, hblock, hrest, length_append,
      range'_append_1]

end Identities

/-! ### Shape -/

/-- What the structure checks say about a function. -/
structure Shape (function : Function) (layouts : VerifiedLayouts) : Prop where
  definition_ids : function.definitions.map ValueDefinition.id
    = List.range function.definitions.length
  place : ∀ (i : ℕ) (place : Place), function.places[i]? = some place →
    place.id = i ∧ mappedType place function = some place.ty
      ∧ projectionValid layouts place function = true
  terminator : ∀ block ∈ function.blocks, ∃ terminator, block.terminators = [terminator]
    ∧ (verifyTerminator terminator function).Clean

theorem Accepted.shape {sources : SourceMap} {layouts : VerifiedLayouts} {types : CloneTypes}
    {functionIndex : ℕ} {function : Function} {borrows : BorrowIndex}
    (h : Accepted sources layouts types module functionIndex function borrows) :
    Shape function layouts := by
  have hclean := h.structure_clean
  simp only [verifyFunctionStructure, clean_bind, value_checkValues, clean_forM] at hclean
  obtain ⟨-, -, -, hparameters, -, hplaces, -, hblocks, -⟩ := hclean
  refine ⟨?_, ?_, ?_⟩
  · have hblockIds := ids_of_checkBlock hblocks
    have hflat : (function.blocks.zipIdx.flatMap fun entry => entry.1.definitions)
        = function.blocks.flatMap Block.definitions := by
      rw [← flatMap_map (f := Prod.fst) (g := Block.definitions), zipIdx_map_fst]
    rw [hflat] at hblockIds
    rw [Function.definitions, map_append, ids_of_checkValue hparameters, hblockIds,
      length_append, range_eq_range', range'_append_1]
  · intro i place hi
    have hmem : (place, i) ∈ function.places.zipIdx := by
      rw [mem_zipIdx_iff_getElem?]
      exact hi
    have hplace := hplaces _ hmem
    simp only [checkPlace, clean_bind, clean_pushIf, not_or, not_not,
      Bool.not_eq_false] at hplace
    exact ⟨hplace.1.1, hplace.2.2.2.1, hplace.2.2.2.2.2⟩
  · intro block hblock
    obtain ⟨i, hi⟩ := mem_iff_getElem?.mp hblock
    have hmem : (block, i) ∈ function.blocks.zipIdx := by
      rw [mem_zipIdx_iff_getElem?]
      exact hi
    obtain ⟨next, hnext⟩ := hblocks.of_mem_foldlM hmem
    simp only [checkBlock, clean_bind, clean_pushIf, not_not] at hnext
    obtain ⟨-, -, -, -, hlength, hterminator⟩ := hnext
    obtain ⟨terminator, hone⟩ := length_eq_one_iff.mp hlength
    rw [hone] at hterminator
    simp only [clean_bind] at hterminator
    exact ⟨terminator, hone, hterminator.2.1⟩

end Zryna.Ir.DataOwnership
