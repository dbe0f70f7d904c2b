import Zryna.Ir.ControlFlow.Availability

/-!
# Verified programs

What acceptance by `verify` says about a program as a whole. `WellFormed` collects the typing and
availability facts of one function; `CallOrder` is the ranking of functions that the call-graph
sweep leaves behind, which increases along every call and stays below the static depth limit.
`verifiedFacts_of_verify` provides both.
-/

namespace Zryna.Ir.ControlFlow

open Report List

/-! ### One function -/

/-- What the checks of one function establish. -/
structure WellFormed (program : Program) (function : Function) : Prop where
  blocks_ne : function.blocks ≠ []
  blocks_le : function.blocks.length ≤ maxBlocksPerFunction
  block_id : ∀ (b : ℕ) (block : Block), function.blocks[b]? = some block → block.id = b
  entry_parameters : ∀ block : Block, function.blocks[0]? = some block → block.parameters = []
  dense : ∀ (i : ℕ) (entry : ValueDefinition × DefinitionLocation),
    function.located[i]? = some entry → entry.1.id = i ∧ entry.1.ty ≠ .unit
  result_ne : function.result ≠ .unit
  instruction : ∀ (b : ℕ) (block : Block), function.blocks[b]? = some block →
    ∀ (k : ℕ) (i : Instruction), block.instructions[k]? = some i →
      InstructionTyped function.valueTable (collectSignatures program) i
  terminator : ∀ (b : ℕ) (block : Block), function.blocks[b]? = some block →
    ∃ t, block.terminators = [t] ∧ TerminatorTyped function function.valueTable t.kind
  available : ∃ dom, Availability function dom

/-- The blocks in front of block `b` have smaller numbers. -/
theorem WellFormed.blocks_split {program : Program} {function : Function} {b : ℕ} {block : Block}
    (h : WellFormed program function) (hb : function.blocks[b]? = some block) :
    ∃ front back, function.blocks = front ++ block :: back ∧ ∀ c ∈ front, c.id < b := by
  obtain ⟨hlt, rfl⟩ := List.getElem?_eq_some_iff.mp hb
  refine ⟨_, _, (take_append_drop b _).symm.trans (by rw [drop_eq_getElem_cons hlt]), ?_⟩
  intro c hc
  obtain ⟨j, hj, rfl⟩ := mem_take_iff_getElem.mp hc
  rw [h.block_id j _ (getElem?_eq_getElem _)]
  omega

theorem clean_validateSpan (span : Span) (moduleFile : FileId) (sources : SourceMap) :
    (validateSpan span moduleFile sources).Clean ↔
      (validateSpan span moduleFile sources).value = true := by
  unfold validateSpan
  cases sources.resolve span with
  | error e => simp
  | ok source =>
    dsimp only
    split <;> simp

/-- A clean function check, read back check by check. -/
theorem clean_verifyFunction (key : FunctionKey) (function : Function) (moduleFile : FileId)
    (signatures : Signatures) (sources : SourceMap) :
    (verifyFunction key function moduleFile signatures sources).Clean ↔
      (∀ span ∈ function.spans, (validateSpan span moduleFile sources).Clean)
        ∧ function.result ≠ .unit ∧ (defineValues key function).Clean
        ∧ (∀ entry ∈ function.blocks.zipIdx,
          BlockChecked key function function.valueTable signatures entry)
        ∧ (verifyCfg key function function.valueTable function.edges).Clean := by
  have hspans : ((function.spans.map fun span =>
      (validateSpan span moduleFile sources).value).all id = true) ↔
      ∀ span ∈ function.spans, (validateSpan span moduleFile sources).Clean := by
    simp [all_eq_true, clean_validateSpan]
  have hbody : ∀ facts : BodyFacts, (function.blocks.zipIdx.foldlM
      (verifyBlock key function function.valueTable signatures) facts).Clean ↔
      ∀ entry ∈ function.blocks.zipIdx,
        BlockChecked key function function.valueTable signatures entry :=
    clean_foldlM _ fun facts entry _ => clean_verifyBlock key function _ signatures facts entry
  have hedges : (∀ entry ∈ function.blocks.zipIdx,
      BlockChecked key function function.valueTable signatures entry) →
      (function.blocks.zipIdx.foldlM (verifyBlock key function function.valueTable signatures)
        ⟨[], []⟩).value.edges = function.edges := by
    intro h
    rw [edges_foldlM_verifyBlock _ h]
    rfl
  simp only [verifyFunction, clean_bind, clean_mapM, value_mapM]
  constructor
  · rintro ⟨hs, hrest⟩
    rw [if_pos (hspans.mpr hs)] at hrest
    simp only [clean_bind, validateType, clean_pushIf, value_defineValues, hbody, clean_pure,
      and_true] at hrest
    obtain ⟨hresult, hvalues, hblocks, hcfg⟩ := hrest
    rw [hedges hblocks] at hcfg
    exact ⟨hs, hresult, hvalues, hblocks, hcfg⟩
  · rintro ⟨hs, hresult, hvalues, hblocks, hcfg⟩
    refine ⟨hs, ?_⟩
    rw [if_pos (hspans.mpr hs)]
    simp only [clean_bind, validateType, clean_pushIf, value_defineValues, hbody, clean_pure,
      and_true]
    rw [hedges hblocks]
    exact ⟨hresult, hvalues, hblocks, hcfg⟩

variable {values : List ValueInfo} {moduleFile expectedEntry : FileId} {program : Program}
  {sources : SourceMap} {signatures : Signatures}

/-- Edges of typed terminators stay inside the function and avoid the entry. -/
theorem edges_inside {function : Function}
    (h : ∀ (b : ℕ) (block : Block), function.blocks[b]? = some block →
      ∃ t, block.terminators = [t] ∧ TerminatorTyped function values t.kind) :
    ∀ e ∈ function.edges, e.source < function.blocks.length ∧ e.target < function.blocks.length
      ∧ e.target ≠ 0 := by
  have hedge : ∀ {target : ℕ} {arguments : List ℕ}, EdgeTyped function values target arguments →
      target < function.blocks.length ∧ target ≠ 0 := by
    rintro target arguments ⟨hne, block, hb, -⟩
    exact ⟨(List.getElem?_eq_some_iff.mp hb).1, hne⟩
  intro e he
  obtain ⟨⟨block, b⟩, hmem, heb⟩ := mem_flatMap.mp he
  have hb := mk_mem_zipIdx_iff_getElem?.mp hmem
  have hlt : b < function.blocks.length := (List.getElem?_eq_some_iff.mp hb).1
  obtain ⟨t, hts, htyped⟩ := h b block hb
  simp only [blockEdges, hts] at heb
  cases hk : t.kind with
  | «return» value => simp [hk, edgesOf] at heb
  | jump target arguments =>
    rw [hk] at heb htyped
    obtain rfl : e = ⟨b, target, arguments⟩ := by simpa [edgesOf] using heb
    exact ⟨hlt, hedge htyped⟩
  | branch condition trueTarget trueArguments falseTarget falseArguments =>
    rw [hk] at heb htyped
    simp only [edgesOf, mem_cons, not_mem_nil, or_false] at heb
    rcases heb with rfl | rfl
    · exact ⟨hlt, hedge htyped.2.1⟩
    · exact ⟨hlt, hedge htyped.2.2⟩

theorem wellFormed_of_clean {key : FunctionKey} {function : Function} (hne : function.blocks ≠ [])
    (hle : function.blocks.length ≤ maxBlocksPerFunction)
    (h : (verifyFunction key function moduleFile (collectSignatures program) sources).Clean) :
    WellFormed program function := by
  obtain ⟨-, hresult, hvalues, hblocks, hcfg⟩ := (clean_verifyFunction ..).mp h
  obtain ⟨hids, hdense⟩ := (clean_defineValues ..).mp hvalues
  have hblock : ∀ (b : ℕ) (block : Block), function.blocks[b]? = some block →
      BlockChecked key function function.valueTable (collectSignatures program) (block, b) :=
    fun b block hb => hblocks _ (mk_mem_zipIdx_iff_getElem?.mpr hb)
  have hterm : ∀ (b : ℕ) (block : Block), function.blocks[b]? = some block →
      ∃ t, block.terminators = [t] ∧ TerminatorTyped function function.valueTable t.kind := by
    intro b block hb
    obtain ⟨t, hts, ht⟩ := (hblock b block hb).terminator
    exact ⟨t, hts, ((clean_verifyTerminator ..).mp ht).1⟩
  have hinside := edges_inside hterm
  obtain ⟨idom, hchecked, -⟩ :=
    (clean_verifyCfg key hne fun e he => ⟨(hinside e he).1, (hinside e he).2.1⟩).mp hcfg
  refine ⟨hne, hle, fun b block hb => (hids b block hb).1, fun block hb => (hids 0 block hb).2 rfl,
    hdense, hresult, fun b block hb k i hi => ?_, hterm, _, hchecked.availability hne hinside⟩
  have := (hblock b block hb).instruction (i, k) (mk_mem_zipIdx_iff_getElem?.mpr hi)
  exact ((clean_verifyInstruction ..).mp this).1

/-! ### Calls -/

def callOf (key : FunctionKey) : InstructionKind → List (FunctionKey × FunctionKey)
  | .directCall callee _ => [(key, ⟨callee.module, callee.declaration⟩)]
  | _ => []

/-- The call edges of a function, in body order. -/
def callsOf (key : FunctionKey) (function : Function) : List (FunctionKey × FunctionKey) :=
  function.blocks.flatMap fun block => block.instructions.flatMap fun i => callOf key i.kind

theorem value_verifyInstruction {key : FunctionKey} {block position : ℕ} {instruction : Instruction}
    (h : (verifyInstruction key block position instruction values signatures).Clean) :
    (verifyInstruction key block position instruction values signatures).value
      = callOf key instruction.kind := by
  unfold verifyInstruction at h ⊢
  cases hk : instruction.kind with
  | directCall callee arguments =>
    simp only [hk] at h ⊢
    obtain ⟨⟨parameters, hsig, -⟩, -⟩ := (clean_verifyDirectCall ..).mp h
    unfold verifyDirectCall
    rw [hsig]
    rfl
  | _ => rfl

theorem flatMap_zipIdx_fst {α β : Type} (xs : List α) (k : ℕ) (f : α → List β) :
    (xs.zipIdx k).flatMap (fun x => f x.1) = xs.flatMap f := by
  induction xs generalizing k with
  | nil => rfl
  | cons x xs ih => simp [zipIdx_cons, ih]

/-- A clean function check returns the calls of the body. -/
theorem value_verifyFunction {key : FunctionKey} {function : Function}
    (h : (verifyFunction key function moduleFile signatures sources).Clean) :
    (verifyFunction key function moduleFile signatures sources).value = callsOf key function := by
  obtain ⟨hs, -, -, hblocks, -⟩ := (clean_verifyFunction ..).mp h
  have hspans : (function.spans.map fun span =>
      (validateSpan span moduleFile sources).value).all id = true := by
    simpa [all_eq_true] using fun span hspan => (clean_validateSpan ..).mp (hs span hspan)
  unfold verifyFunction
  simp only [value_bind, value_mapM]
  rw [if_pos hspans]
  simp only [value_bind, value_defineValues, value_pure, calls_foldlM_verifyBlock, nil_append]
  rw [callsOf, ← flatMap_zipIdx_fst function.blocks 0]
  refine flatMap_congr fun entry hentry => ?_
  rw [← flatMap_zipIdx_fst entry.1.instructions 0]
  refine flatMap_congr fun x hx => ?_
  exact value_verifyInstruction ((hblocks entry hentry).instruction x hx)

/-- The call edges of a program, in table order. -/
def programCalls (program : Program) : List (FunctionKey × FunctionKey) :=
  program.modules.zipIdx.flatMap fun (module, moduleIndex) =>
    module.functions.zipIdx.flatMap fun (function, functionIndex) =>
      callsOf ⟨moduleIndex, functionIndex⟩ function

/-- The function at a position of the table, with the module that holds it. -/
theorem function?_eq_some {id : FunctionId} {function : Function} :
    program.function? id = some function ↔ ∃ module, program.modules[id.module]? = some module
      ∧ module.functions[id.declaration]? = some function := by
  unfold Program.function?
  cases program.modules[id.module]? <;> simp

/-- The checks after preflight, read back. -/
theorem clean_verifyBody (program : Program) (sources : SourceMap) (expectedEntry : FileId) :
    (verifyBody program sources expectedEntry).Clean ↔
      (verifyModules program sources expectedEntry).Clean
        ∧ (∀ m ∈ program.modules.zipIdx, ∀ f ∈ m.1.functions.zipIdx,
          (verifyFunction ⟨m.2, f.2⟩ f.1 m.1.sourceFile (collectSignatures program)
            sources).Clean)
        ∧ (verifyCallGraph program (programCalls program)).Clean
        ∧ (verifyPublicAbi program).Clean := by
  let check (m : Module × ℕ) (f : Function × ℕ) : Check (List (FunctionKey × FunctionKey)) :=
    verifyFunction ⟨m.2, f.2⟩ f.1 m.1.sourceFile (collectSignatures program) sources
  let round (calls : List (FunctionKey × FunctionKey)) (m : Module × ℕ) :
      Check (List (FunctionKey × FunctionKey)) :=
    m.1.functions.zipIdx.foldlM (fun calls f => do
      let more ← check m f
      pure (calls ++ more)) calls
  have hclean : (program.modules.zipIdx.foldlM round []).Clean ↔
      ∀ m ∈ program.modules.zipIdx, ∀ f ∈ m.1.functions.zipIdx, (check m f).Clean :=
    clean_foldlM (f := round) _
      (fun calls m _ => clean_foldlM_append (check m) m.1.functions.zipIdx calls) []
  have hvalue : (∀ m ∈ program.modules.zipIdx, ∀ f ∈ m.1.functions.zipIdx, (check m f).Clean) →
      (program.modules.zipIdx.foldlM round []).value = programCalls program := by
    intro h
    have hround : ∀ calls, ∀ m ∈ program.modules.zipIdx, (round calls m).value
        = calls ++ m.1.functions.zipIdx.flatMap fun f => callsOf ⟨m.2, f.2⟩ f.1 := by
      intro calls m hm
      rw [value_foldlM_append (check m)]
      congr 1
      exact flatMap_congr fun f hf => value_verifyFunction (h m hm f hf)
    rw [value_foldlM _ hround, foldl_append_eq_append]
    rw [nil_append]
    rfl
  have hbody : (verifyBody program sources expectedEntry).Clean ↔
      (verifyModules program sources expectedEntry).Clean
        ∧ (program.modules.zipIdx.foldlM round []).Clean
        ∧ (verifyCallGraph program (program.modules.zipIdx.foldlM round []).value).Clean
        ∧ (verifyPublicAbi program).Clean := by
    simp only [verifyBody, clean_bind]
    rfl
  rw [hbody]
  constructor
  · rintro ⟨hm, hf, hc, ha⟩
    have hf := hclean.mp hf
    exact ⟨hm, hf, hvalue hf ▸ hc, ha⟩
  · rintro ⟨hm, hf, hc, ha⟩
    exact ⟨hm, hclean.mpr hf, (hvalue hf).symm ▸ hc, ha⟩

/-! ### The call order -/

/-- The body contains a call of `callee`. -/
def Function.Calls (function : Function) (callee : FunctionId) : Prop :=
  ∃ block ∈ function.blocks, ∃ i ∈ block.instructions, ∃ arguments,
    i.kind = .directCall callee arguments

/-- A ranking of the functions that increases along calls and stays within the depth limit. -/
structure CallOrder (program : Program) (rank : FunctionId → ℕ) : Prop where
  pos : ∀ id function, program.function? id = some function → 1 ≤ rank id
  le : ∀ id function, program.function? id = some function → rank id ≤ maxStaticCallDepth
  lt : ∀ id function, program.function? id = some function → ∀ callee, function.Calls callee →
    (program.function? callee).isSome → rank id < rank callee

theorem getD_functionOffsets {m : ℕ} (hm : m ≤ program.modules.length) :
    (functionOffsets program).getD m 0
      = ((program.modules.take m).map fun module => module.functions.length).sum := by
  have : m < program.modules.length + 1 := by omega
  simp [functionOffsets, getD_eq_getElem?_getD, this]

theorem getLast?_functionOffsets (program : Program) :
    (functionOffsets program).getLast?
      = some (program.modules.map fun module => module.functions.length).sum := by
  simp [functionOffsets, range_succ, take_of_length_le]

theorem length_callLists (program : Program) (calls : List (FunctionKey × FunctionKey)) :
    (callLists program calls).length
      = (program.modules.map fun module => module.functions.length).sum := by
  simp [callLists, getLast?_functionOffsets]

def FunctionId.key (id : FunctionId) : FunctionKey := ⟨id.module, id.declaration⟩

/-- Functions have their place in the flat table. -/
theorem flatIndex_lt {id : FunctionId} {function : Function}
    (h : program.function? id = some function) :
    flatIndex program id.key < (program.modules.map fun module => module.functions.length).sum := by
  obtain ⟨module, hm, hf⟩ := function?_eq_some.mp h
  obtain ⟨hml, rfl⟩ := List.getElem?_eq_some_iff.mp hm
  have hfl := (List.getElem?_eq_some_iff.mp hf).1
  unfold flatIndex FunctionId.key
  rw [getD_functionOffsets hml.le]
  calc _ < ((program.modules.take id.module).map fun module => module.functions.length).sum
          + program.modules[id.module].functions.length := by simpa using hfl
    _ = ((program.modules.take (id.module + 1)).map fun module => module.functions.length).sum := by
        rw [take_succ_eq_append_getElem hml, map_append, sum_append]
        rfl
    _ ≤ _ := by
        conv_rhs => rw [← take_append_drop (id.module + 1) program.modules]
        rw [map_append, sum_append]
        omega

theorem mem_programCalls {call : FunctionKey × FunctionKey} :
    call ∈ programCalls program ↔ ∃ id function callee, program.function? id = some function
      ∧ function.Calls callee ∧ call = (id.key, callee.key) := by
  have hcall : ∀ {key : FunctionKey} {function : Function}, call ∈ callsOf key function ↔
      ∃ callee, function.Calls callee ∧ call = (key, callee.key) := by
    intro key function
    simp only [callsOf, mem_flatMap, Function.Calls]
    constructor
    · rintro ⟨block, hb, i, hi, hc⟩
      unfold callOf at hc
      split at hc
      · next callee arguments hk =>
        exact ⟨callee, ⟨block, hb, i, hi, arguments, hk⟩, by simpa [FunctionId.key] using hc⟩
      · simp at hc
    · rintro ⟨callee, ⟨block, hb, i, hi, arguments, hk⟩, rfl⟩
      exact ⟨block, hb, i, hi, by simp [hk, callOf, FunctionId.key]⟩
  simp only [programCalls, mem_flatMap, hcall]
  constructor
  · rintro ⟨⟨module, m⟩, hm, ⟨function, f⟩, hf, callee, hcalls, rfl⟩
    exact ⟨⟨m, f⟩, function, callee, function?_eq_some.mpr
      ⟨module, mk_mem_zipIdx_iff_getElem?.mp hm, mk_mem_zipIdx_iff_getElem?.mp hf⟩,
      hcalls, rfl⟩
  · rintro ⟨id, function, callee, hf, hcalls, rfl⟩
    obtain ⟨module, hm, hf⟩ := function?_eq_some.mp hf
    exact ⟨(module, id.module), mk_mem_zipIdx_iff_getElem?.mpr hm,
      (function, id.declaration), mk_mem_zipIdx_iff_getElem?.mpr hf, callee, hcalls, rfl⟩

theorem mem_callLists {calls : List (FunctionKey × FunctionKey)} {u v : ℕ} :
    v ∈ (callLists program calls).getD u [] ↔
      u < (program.modules.map fun module => module.functions.length).sum
        ∧ ∃ call ∈ calls, flatIndex program call.1 = u ∧ flatIndex program call.2 = v := by
  unfold callLists
  rw [getLast?_functionOffsets]
  by_cases hu : u < (program.modules.map fun module => module.functions.length).sum
  · simp [getD_eq_getElem?_getD, hu, and_assoc]
  · simp [getD_eq_getElem?_getD, hu]

theorem foldl_max_le {xs : List ℕ} {start bound : ℕ} :
    xs.foldl max start ≤ bound ↔ start ≤ bound ∧ ∀ x ∈ xs, x ≤ bound := by
  induction xs generalizing start with
  | nil => simp
  | cons x xs ih => simp [ih, and_assoc]

/-- A clean sweep of the call graph ranks the functions. -/
theorem callOrder_of_clean
    (hcallees : ∀ id function, program.function? id = some function → ∀ callee,
      function.Calls callee → (program.function? callee).isSome)
    (h : (verifyCallGraph program (programCalls program)).Clean) :
    ∃ rank, CallOrder program rank := by
  have hlt : ∀ u, ∀ v ∈ (callLists program (programCalls program)).getD u [],
      v < (callLists program (programCalls program)).length := by
    intro u v hv
    obtain ⟨-, call, hcall, rfl, rfl⟩ := mem_callLists.mp hv
    obtain ⟨id, function, callee, hf, hcalls, rfl⟩ := mem_programCalls.mp hcall
    obtain ⟨target, ht⟩ := Option.isSome_iff_exists.mp (hcallees id function hf callee hcalls)
    rw [length_callLists]
    exact flatIndex_lt ht
  unfold verifyCallGraph at h
  dsimp only at h
  split at h
  · simp at h
  next hseen =>
  rw [not_not] at hseen
  rw [clean_limitIf, not_lt] at h
  refine ⟨fun id => (Kahn.run (callLists program (programCalls program))).depth.getD
    (flatIndex program id.key) 0, fun id function hf => ?_, fun id function hf => ?_,
    fun id function hf callee hcalls _ => ?_⟩
  · exact Kahn.run_depth_pos hlt (by rw [length_callLists]; exact flatIndex_lt hf)
  · refine (foldl_max_le.mp h).2 _ ?_
    have hl : flatIndex program id.key
        < (Kahn.run (callLists program (programCalls program))).depth.length := by
      rw [Kahn.length_run_depth hlt, length_callLists]
      exact flatIndex_lt hf
    simp only [getD_eq_getElem?_getD, getElem?_eq_getElem hl, Option.getD_some]
    exact getElem_mem hl
  · refine Kahn.run_depth_lt hlt hseen (by rw [length_callLists]; exact flatIndex_lt hf) ?_
    exact mem_callLists.mpr ⟨flatIndex_lt hf, _,
      mem_programCalls.mpr ⟨id, function, callee, hf, hcalls, rfl⟩, rfl, rfl⟩

/-! ### Verified views -/

/-- Positions of the exporting functions among the exports. -/
def exportIndices : ℕ → List Function → List (Option ℕ)
  | _, [] => []
  | next, function :: rest =>
    if function.entryExport.isSome then some next :: exportIndices (next + 1) rest
    else none :: exportIndices next rest

/-- The ABI index of every function of the table. Only the entry module exports. -/
def abiIndices (program : Program) : List (List (Option ℕ)) :=
  program.modules.zipIdx.map fun (module, moduleIndex) =>
    if moduleIndex = program.entryModule then exportIndices 0 module.functions
    else module.functions.map fun _ => none

/-- A verified function with its public export, if it has one. -/
structure VerifiedFunction where
  function : Function
  publicExport : Option Abi.VerifiedExport
deriving DecidableEq

/-- The functions of every module, in table order. -/
def VerifiedProgram.functions (verified : VerifiedProgram) : List VerifiedFunction :=
  (verified.program.modules.zip (abiIndices verified.program)).flatMap fun (module, indices) =>
    (module.functions.zip indices).map fun (function, index) =>
      ⟨function, index.bind fun index => verified.abi[index]?⟩

theorem length_exportIndices (next : ℕ) (functions : List Function) :
    (exportIndices next functions).length = functions.length := by
  induction functions generalizing next with
  | nil => rfl
  | cons function rest ih =>
    rw [exportIndices]
    split <;> simp [ih]

/-- The views are the functions of the table. -/
theorem map_functions (verified : VerifiedProgram) :
    verified.functions.map VerifiedFunction.function
      = verified.program.modules.flatMap Module.functions := by
  have key : ∀ (modules : List Module) (indices : List (List (Option ℕ))),
      indices.map List.length = modules.map (fun module => module.functions.length) →
      ((modules.zip indices).flatMap fun (module, indices) =>
        (module.functions.zip indices).map fun (function, index) =>
          (⟨function, index.bind fun index => verified.abi[index]?⟩ : VerifiedFunction)).map
        VerifiedFunction.function = modules.flatMap Module.functions := by
    intro modules
    induction modules with
    | nil => simp
    | cons module modules ih =>
      intro indices hlen
      cases indices with
      | nil => simp at hlen
      | cons index indices =>
        simp only [map_cons, List.cons.injEq] at hlen
        rw [zip_cons_cons, flatMap_cons, map_append, ih indices hlen.2,
          flatMap_cons, map_map]
        congr 1
        exact map_fst_zip (by omega)
  refine key _ _ ?_
  rw [abiIndices, map_map]
  rw [← map_fst_zipIdx_map verified.program.modules 0 fun module => module.functions.length]
  refine map_congr_left fun entry _ => ?_
  simp only [Function.comp_apply]
  split <;> simp [length_exportIndices]

/-! ### Accepted programs -/

/-- What acceptance says about the functions of a program. -/
structure VerifiedFacts (program : Program) : Prop where
  wellFormed : ∀ id function, program.function? id = some function → WellFormed program function
  function_id : ∀ id function, program.function? id = some function → function.id = id
  callOrder : ∃ rank, CallOrder program rank

/-- A folded walk whose rounds are clean only where `P` holds. -/
theorem forall_of_clean_foldlM {α β : Type} {f : β → α → Check β} {P : α → Prop} (xs : List α)
    (h : ∀ b, ∀ x ∈ xs, (f b x).Clean → P x) (b : β) (hclean : (xs.foldlM f b).Clean) :
    ∀ x ∈ xs, P x := by
  intro x hx
  obtain ⟨c, hround⟩ := hclean.of_mem_foldlM hx
  exact h c x hx hround

/-- A clean preflight leaves no function without blocks or with too many of them. -/
theorem blocks_of_preflight (h : (preflight program).Clean)
    {id : FunctionId} {function : Function} (hf : program.function? id = some function) :
    function.blocks ≠ [] ∧ function.blocks.length ≤ maxBlocksPerFunction := by
  obtain ⟨module, hm, hf⟩ := function?_eq_some.mp hf
  unfold preflight at h
  split at h
  · simp at h
  simp only [clean_bind] at h
  have hmodule : ∀ m ∈ program.modules.zipIdx, ∀ f ∈ m.1.functions.zipIdx,
      f.1.blocks ≠ [] ∧ f.1.blocks.length ≤ maxBlocksPerFunction := by
    refine forall_of_clean_foldlM _ (fun totals m _ hclean => ?_) _ h.2.1
    simp only [preflightModule, clean_bind] at hclean
    refine forall_of_clean_foldlM _ (fun totals f _ hclean => ?_) _ hclean.2.2
    simp only [preflightFunction, clean_bind, clean_limitIf, not_or, not_lt] at hclean
    exact hclean.2.2.1
  exact hmodule (module, id.module) (mk_mem_zipIdx_iff_getElem?.mpr hm)
    (function, id.declaration) (mk_mem_zipIdx_iff_getElem?.mpr hf)

variable {verified : VerifiedProgram}

/-- An accepted program passed both phases without an event. -/
theorem clean_of_verify (h : verify program sources expectedEntry = .ok verified) :
    (preflight program).Clean ∧ (verifyBody program sources expectedEntry).Clean
      ∧ verified.program = program := by
  unfold verify at h
  split at h
  · exact absurd h (by simp)
  next hpre =>
  dsimp only at h
  split at h
  · exact absurd h (by simp)
  next hbody =>
  split at h
  · cases h
    exact ⟨not_not.mp hpre, not_not.mp hbody, rfl⟩
  · exact absurd h (by simp)

theorem calleeSignature_collect {callee : FunctionId} {signature : FunctionSignature} :
    calleeSignature (collectSignatures program) callee = some signature ↔
      ∃ function, program.function? callee = some function ∧ function.signature = signature := by
  unfold calleeSignature collectSignatures Program.function?
  rw [getElem?_map]
  cases program.modules[callee.module]? <;> simp

theorem WellFormed.callee {function : Function}
    (h : WellFormed program function) {callee : FunctionId} (hc : function.Calls callee) :
    (program.function? callee).isSome := by
  obtain ⟨block, hb, i, hi, arguments, hk⟩ := hc
  obtain ⟨b, hb⟩ := mem_iff_getElem?.mp hb
  obtain ⟨k, hi⟩ := mem_iff_getElem?.mp hi
  have := h.instruction b block hb k i hi
  unfold InstructionTyped at this
  rw [hk] at this
  obtain ⟨parameters, hsig, -⟩ := this
  obtain ⟨target, ht, -⟩ := calleeSignature_collect.mp hsig
  exact Option.isSome_iff_exists.mpr ⟨target, ht⟩

/-- **Verified facts.** Every function of an accepted program is well formed and numbered by its
position, and the calls are ranked. -/
theorem verifiedFacts_of_verify (h : verify program sources expectedEntry = .ok verified) :
    VerifiedFacts program := by
  obtain ⟨hpre, hbody, -⟩ := clean_of_verify h
  obtain ⟨hmodules, hfunctions, hcalls, -⟩ := (clean_verifyBody ..).mp hbody
  have hwf : ∀ id function, program.function? id = some function →
      WellFormed program function := by
    intro id function hf
    obtain ⟨module, hm, hf'⟩ := function?_eq_some.mp hf
    obtain ⟨hne, hle⟩ := blocks_of_preflight hpre hf
    exact wellFormed_of_clean hne hle
      (hfunctions (module, id.module) (mk_mem_zipIdx_iff_getElem?.mpr hm)
        (function, id.declaration) (mk_mem_zipIdx_iff_getElem?.mpr hf'))
  refine ⟨hwf, fun id function hf => ?_,
    callOrder_of_clean (fun id function hf callee hc => (hwf id function hf).callee hc) hcalls⟩
  obtain ⟨module, hm, hf⟩ := function?_eq_some.mp hf
  simp only [verifyModules, verifyModuleFunctions, clean_bind, clean_forM, clean_pushIf, not_or,
    ne_eq, not_not] at hmodules
  obtain ⟨⟨hid, -⟩, hfun⟩ := hmodules.2.2 (module, id.module)
    (mk_mem_zipIdx_iff_getElem?.mpr hm)
  have := (hfun (function, id.declaration) (mk_mem_zipIdx_iff_getElem?.mpr hf)).1
  cases hfi : function.id
  rw [hfi] at this
  simp only at this hid
  rw [this.1, this.2, hid]

/-- The views of a verified program are its functions, each found under its own identity. -/
theorem VerifiedFacts.mem_functions (facts : VerifiedFacts verified.program) {function : Function} :
    (∃ view ∈ verified.functions, view.function = function) ↔
      verified.program.function? function.id = some function := by
  have hmem : (∃ view ∈ verified.functions, view.function = function) ↔
      function ∈ verified.program.modules.flatMap Module.functions := by
    rw [← map_functions, mem_map]
  rw [hmem, mem_flatMap]
  constructor
  · rintro ⟨module, hm, hf⟩
    obtain ⟨m, hm⟩ := mem_iff_getElem?.mp hm
    obtain ⟨f, hf⟩ := mem_iff_getElem?.mp hf
    have hfound : verified.program.function? ⟨m, f⟩ = some function :=
      function?_eq_some.mpr ⟨module, hm, hf⟩
    rwa [facts.function_id _ _ hfound]
  · intro h
    obtain ⟨module, hm, hf⟩ := function?_eq_some.mp h
    exact ⟨module, mem_of_getElem? hm, mem_of_getElem? hf⟩

end Zryna.Ir.ControlFlow
