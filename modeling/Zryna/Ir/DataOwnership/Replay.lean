import Zryna.Ir.DataOwnership.Fixpoint

/-!
# The replay agrees with the verified dataflow

Backends do not see the flows the verifier computed. They ask `deriveFlowBefore` for the flow at a
cleanup site, which walks the blocks of the function again: in another order, taking the first
arrival at each block without comparing it, ignoring what transfers report, and transferring the
arguments of the call it stops at before the variants behind its borrows are forgotten.

`deriveFlowBefore_eq` says that none of this makes a difference: for a function of an accepted
program the replay reaches every cleanup site, and what it returns is the flow the site's plan was
checked against, which is the flow of every path to the site.
-/

namespace Zryna.Ir.DataOwnership

open Layout Report FirstArrival List

/-! ### The context of an accepted function -/

/-- What the dataflow of a function reads. -/
def flowContext (function : Function) (layouts : VerifiedLayouts) (borrows : BorrowIndex) :
    FlowContext :=
  ⟨function, layouts, borrows, (deriveValueOwners function (valueTable function) layouts).value⟩

/-- The checks behind the structure of a function, with the borrow index they end with. -/
structure GraphClean (function : Function) (layouts : VerifiedLayouts) (types : CloneTypes)
    (borrows : BorrowIndex) : Prop where
  flowGraph : (verifyFlowGraph function (valueTable function)).Clean
  operations : (verifyOperations function (valueTable function) layouts types
    (BorrowIndex.new function layouts)
    (computeDominators (predecessorLists (successorLists function))
      (reachableBlocks (successorLists function)))).Clean
  owners : (deriveValueOwners function (valueTable function) layouts).Clean
  transient : (deriveTransient function (successorLists function)
    (computeDominators (predecessorLists (successorLists function))
      (reachableBlocks (successorLists function))) (BorrowIndex.new function layouts)).Clean
  borrows_eq : borrows = { BorrowIndex.new function layouts with
    incoming := (deriveTransient function (successorLists function)
      (computeDominators (predecessorLists (successorLists function))
        (reachableBlocks (successorLists function))) (BorrowIndex.new function layouts)).value }
  dataflow : (ownershipDataflow (flowContext function layouts borrows)).Clean

variable {borrows : BorrowIndex} {function : Function} {layouts : VerifiedLayouts}

theorem Accepted.graph {sources : SourceMap} {types : CloneTypes} {module : Module}
    {functionIndex : ℕ} (h : Accepted sources layouts types module functionIndex function borrows) :
    GraphClean function layouts types borrows := by
  have hclean := h.graph_clean
  have hvalue := h.borrows_eq
  simp only [verifyFunctionGraph, clean_ifClean, clean_bind, clean_pure, and_true] at hclean
  obtain ⟨hflow, hoperations, howners, htransient, hdataflow⟩ := hclean
  rw [verifyFunctionGraph, value_ifClean _ _ hflow, value_ifClean _ _ hoperations,
    value_ifClean _ _ howners, value_ifClean _ _ htransient, value_bind, value_pure] at hvalue
  refine ⟨hflow, hoperations, howners, htransient, hvalue.symm, ?_⟩
  simp only [verifyOwnershipDataflow, clean_bind, clean_pure, and_true] at hdataflow
  rw [← hvalue]
  exact hdataflow

theorem Shape.edgesInside (h : Shape function layouts) : EdgesInside function := by
  intro block hblock
  obtain ⟨terminator, hone, hclean⟩ := h.terminator block hblock
  refine ⟨terminator, hone, ?_⟩
  simp only [verifyTerminator, clean_pushIf, Bool.not_eq_false] at hclean
  intro edge hedge
  cases hkind : terminator.kind with
  | «return» value cleanup => simp [hkind, terminatorEdges] at hedge
  | trap identity cleanup => simp [hkind, terminatorEdges] at hedge
  | jump only =>
    obtain rfl : edge = only := by simpa [hkind, terminatorEdges] using hedge
    simp only [hkind, Bool.and_eq_true, decide_eq_true_eq] at hclean
    exact hclean.1
  | branch condition whenTrue whenFalse =>
    simp only [hkind, Bool.and_eq_true, decide_eq_true_eq] at hclean
    obtain rfl | rfl : edge = whenTrue ∨ edge = whenFalse := by
      simpa [hkind, terminatorEdges] using hedge
    · exact hclean.1.1
    · exact hclean.2.1
  | enumMatch place arms =>
    simp only [hkind, Bool.and_eq_true, all_eq_true, decide_eq_true_eq] at hclean
    obtain ⟨arm, harm, rfl⟩ : ∃ arm ∈ arms, arm.edge = edge := by
      simpa [hkind, terminatorEdges] using hedge
    exact (hclean.2 arm harm).1
  | weakUpgradeBranch weak success expired cleanup =>
    simp only [hkind, Bool.and_eq_true, decide_eq_true_eq] at hclean
    obtain rfl | rfl : edge = success ∨ edge = expired := by
      simpa [hkind, terminatorEdges] using hedge
    · exact hclean.1.1.1
    · exact hclean.1.2.1

/-! ### Reachability -/

/-- A block that a walk along edges from the entry can get to. -/
inductive BlockReached (successors : List (List ℕ)) : ℕ → Prop where
  | entry : BlockReached successors 0
  | edge {block target : ℕ} : BlockReached successors block →
      target ∈ (successors[block]?).getD [] → BlockReached successors target

variable {successors : List (List ℕ)}

theorem reached_of_reachRounds (fuel : ℕ) :
    ∀ {queue : List ℕ} {reachable : List Bool},
      (∀ n ∈ queue, BlockReached successors n) →
      (∀ n, reachable.getD n false = true → BlockReached successors n) →
      ∀ n, (reachRounds successors fuel queue reachable).getD n false = true →
        BlockReached successors n := by
  induction fuel with
  | zero => intro queue reachable _ hmarked n hn; exact hmarked n hn
  | succ fuel ih =>
    intro queue reachable hqueue hmarked n hn
    cases queue with
    | nil => exact hmarked n hn
    | cons block queue =>
      rw [reachRounds] at hn
      have hblock : BlockReached successors block := hqueue block (by simp)
      split at hn
      · exact ih (fun m hm => hqueue m (by simp [hm])) hmarked n hn
      · refine ih ?_ ?_ n hn
        · intro m hm
          obtain hm | hm := mem_append.mp hm
          · exact hqueue m (by simp [hm])
          · exact .edge hblock hm
        · intro m hm
          by_cases hmb : m = block
          · rw [hmb]
            exact hblock
          · rw [getD_eq_getElem?_getD, getElem?_set_ne (Ne.symm hmb),
              ← getD_eq_getElem?_getD] at hm
            exact hmarked m hm

theorem length_reachRounds (fuel : ℕ) (queue : List ℕ) (reachable : List Bool) :
    (reachRounds successors fuel queue reachable).length = reachable.length := by
  induction fuel generalizing queue reachable with
  | zero => rfl
  | succ fuel ih =>
    cases queue with
    | nil => rfl
    | cons block queue =>
      rw [reachRounds]
      split
      · exact ih _ _
      · rw [ih, length_set]

variable {n : ℕ}

/-- Every block of an accepted function is reached. -/
theorem GraphClean.reached {types : CloneTypes} (h : GraphClean function layouts types borrows)
    (hn : n < function.blocks.length) : BlockReached (successorLists function) n := by
  have hclean := h.flowGraph
  simp only [verifyFlowGraph, clean_bind, clean_pushIf, not_or, Bool.not_eq_true] at hclean
  have hall := hclean.2.2.1.1
  have hlength : (reachableBlocks (successorLists function)).length = function.blocks.length := by
    simp [reachableBlocks, length_reachRounds, successorLists]
  have hmarked : (reachableBlocks (successorLists function)).getD n false = true := by
    rw [any_eq_false] at hall
    have hget := getElem?_eq_getElem (l := reachableBlocks (successorLists function))
      (i := n) (by rw [hlength]; exact hn)
    have := hall _ (mem_of_getElem? hget)
    rw [getD_eq_getElem?_getD, hget]
    simpa using this
  refine reached_of_reachRounds _ ?_ ?_ n hmarked
  · intro m hm
    obtain rfl : m = 0 := by simpa using hm
    exact .entry
  · intro m hm
    by_cases hlt : m < (successorLists function).length <;>
      simp [getD_eq_getElem?_getD, hlt] at hm

theorem flowArrives_of_reached (context : FlowContext)
    (h : BlockReached (successorLists context.function) n) :
    ∃ flow, FlowArrives context n flow := by
  induction h with
  | entry => exact ⟨_, .start⟩
  | @edge block target _ htarget ih =>
    obtain ⟨flow, hflow⟩ := ih
    rw [successorLists, getElem?_map] at htarget
    cases hblock : context.function.blocks[block]? with
    | none => simp [hblock] at htarget
    | some found =>
      have hmem : target ∈ blockSuccessors context.function found := by
        simpa [hblock] using htarget
      simp only [blockSuccessors, blockEdges, mem_filter, mem_map] at hmem
      obtain ⟨⟨⟨edge, edgeIndex⟩, hedge, rfl⟩, -⟩ := hmem
      cases hterminators : found.terminators with
      | nil => simp [hterminators] at hedge
      | cons terminator rest =>
        rw [hterminators] at hedge
        refine ⟨(edgeFlow context terminator edgeIndex edge
          (blockFlow context block found flow)).value, .step hflow ?_⟩
        simp only [blockArrivals, hblock, hterminators, mem_map]
        exact ⟨(edge, edgeIndex), hedge, rfl⟩

/-! ### Owners -/

theorem map_ty_valueTable (function : Function) :
    (valueTable function).map ValueInfo.ty = function.definitions.map ValueDefinition.ty := by
  simp only [valueTable, Function.definitions, map_append, map_map, map_flatMap]
  congr 1
  conv_rhs => rw [← zipIdx_map_fst 0 function.blocks, flatMap_map]
  refine flatMap_congr ?_
  rintro ⟨block, blockIndex⟩ -
  simp only [Block.definitions, map_append, map_filterMap]
  congr 1
  conv_rhs => rw [← zipIdx_map_fst 0 block.instructions, filterMap_map]
  refine filterMap_congr ?_
  rintro ⟨instruction, instructionIndex⟩ -
  cases hresult : instruction.result <;> simp [hresult]

theorem valueTypes_eq (function : Function) :
    function.valueTypes = function.definitions.map ValueDefinition.ty := by
  simp only [Function.valueTypes, Function.definitions, map_append, map_flatMap]
  congr 2
  funext block
  simp [Block.definitions, map_filterMap]

/-- The largest identity of a dense numbering. -/
theorem foldl_max_ids {definitions : List ValueDefinition}
    (h : ∀ n, n ∈ definitions.map ValueDefinition.id ↔ n < definitions.length) :
    definitions.foldl (fun count value => max count (value.id + 1)) 0 = definitions.length := by
  have hfold : ∀ (values : List ValueDefinition) (count : ℕ),
      count ≤ values.foldl (fun count value => max count (value.id + 1)) count
        ∧ (∀ value ∈ values, value.id + 1
          ≤ values.foldl (fun count value => max count (value.id + 1)) count)
        ∧ ∀ bound, count ≤ bound → (∀ value ∈ values, value.id + 1 ≤ bound) →
          values.foldl (fun count value => max count (value.id + 1)) count ≤ bound := by
    intro values
    induction values with
    | nil => simp
    | cons value values ih =>
      intro count
      obtain ⟨hge, hmem, hle⟩ := ih (max count (value.id + 1))
      simp only [foldl_cons, mem_cons, forall_eq_or_imp]
      refine ⟨by omega, ⟨by omega, hmem⟩, ?_⟩
      intro bound hcount hall
      exact hle bound (by omega) hall.2
  obtain ⟨-, hmem, hle⟩ := hfold definitions 0
  refine Nat.le_antisymm (hle _ (Nat.zero_le _) ?_) ?_
  · intro value hvalue
    exact (h value.id).mp (mem_map_of_mem hvalue)
  · by_contra hlt
    obtain ⟨value, hvalue, hid⟩ := mem_map.mp ((h (definitions.length - 1)).mpr (by omega))
    have := hmem value hvalue
    omega

def replayDefinitions (function : Function) : List ValueDefinition :=
  function.parameters ++ function.blocks.flatMap Block.parameters
    ++ function.instructions.filterMap Instruction.result

theorem replayDefinitions_perm (function : Function) :
    (replayDefinitions function).Perm function.definitions := by
  rw [replayDefinitions, Function.definitions, append_assoc, Function.instructions,
    filterMap_flatMap]
  exact (flatMap_append_perm _ _ _).append_left _

section

variable (h : Shape function layouts)

include h

/-- A dense numbering names its last value last. -/
theorem Shape.valueCount :
    (replayDefinitions function).foldl (fun count value => max count (value.id + 1)) 0
      = function.definitions.length := by
  have hperm := replayDefinitions_perm function
  rw [foldl_max_ids, hperm.length_eq]
  intro n
  rw [(hperm.map ValueDefinition.id).mem_iff, h.definition_ids, hperm.length_eq, mem_range]

theorem Shape.parameter_id {i : ℕ} {parameter : ValueDefinition}
    (hi : function.parameters[i]? = some parameter) : parameter.id = i := by
  have hlt : i < function.parameters.length := by
    by_contra hge
    simp [getElem?_eq_none (Nat.le_of_not_lt hge)] at hi
  have hdefinition : function.definitions[i]? = some parameter := by
    rw [Function.definitions, getElem?_append_left hlt, hi]
  have hids : (function.definitions.map ValueDefinition.id)[i]? = some parameter.id := by
    rw [getElem?_map, hdefinition]
    rfl
  rw [h.definition_ids] at hids
  obtain ⟨_, hget⟩ := List.getElem?_eq_some_iff.mp hids
  simpa using hget.symm

/-- One place, as both collections of owners treat it. -/
theorem value_registerOwner {place : Place} {id : ℕ}
    (hplace : function.places[id]? = some place) (owners : ValueOwners) :
    (registerOwner (valueTable function) layouts owners (place, id)).value
      = match (match place.kind with
          | .parameter index => (function.parameters[index]?).map ValueDefinition.id
          | .temporary value => some value
          | _ => none) with
        | some value =>
          if typeNeedsDrop layouts place.ty then owners.set value (some id) else owners
        | none => owners := by
  obtain ⟨-, hmapped, -⟩ := h.place id place hplace
  have hinfo : ∀ value, functionValueType function value = some place.ty →
      ∃ info, valueInfo (valueTable function) value = some info ∧ info.ty = place.ty := by
    intro value hvalue
    rw [functionValueType, valueTypes_eq, ← map_ty_valueTable, getElem?_map] at hvalue
    obtain ⟨info, hinfo, hty⟩ := Option.map_eq_some_iff.mp hvalue
    exact ⟨info, hinfo, hty⟩
  have hset : ∀ value, functionValueType function value = some place.ty →
      rootValue place.kind = some value →
      (registerOwner (valueTable function) layouts owners (place, id)).value
        = if typeNeedsDrop layouts place.ty then owners.set value (some id) else owners := by
    intro value hvalue hroot
    obtain ⟨info, hinfo, hty⟩ := hinfo value hvalue
    by_cases hdrop : typeNeedsDrop layouts place.ty = true <;>
      simp [registerOwner, hroot, hinfo, hty, hdrop]
  cases hkind : place.kind with
  | parameter index =>
    simp only [mappedType, hkind] at hmapped
    obtain ⟨parameter, hparameter, hty⟩ := Option.map_eq_some_iff.mp hmapped
    have htype : functionValueType function index = some place.ty := by
      have hlt := (List.getElem?_eq_some_iff.mp hparameter).1
      rw [functionValueType, Function.valueTypes, getElem?_append_left (by simpa using hlt),
        getElem?_map, hparameter, Option.map_some, hty]
    rw [hset index htype (by simp [rootValue, hkind])]
    simp [hparameter, h.parameter_id hparameter]
  | temporary value =>
    simp only [mappedType, hkind] at hmapped
    rw [hset value hmapped (by simp [rootValue, hkind])]
  | «local» index => simp [registerOwner, rootValue, hkind]
  | structField base ordinal => simp [registerOwner, rootValue, hkind]
  | enumPayload base variant => simp [registerOwner, rootValue, hkind]
  | fixedArrayConstant base index => simp [registerOwner, rootValue, hkind]

/-- The replay finds the owners the verifier derived. -/
theorem replayOwners_eq :
    replayOwners function layouts
      = (deriveValueOwners function (valueTable function) layouts).value := by
  have hcount : (valueTable function).length = function.definitions.length := by
    simpa using congrArg List.length (map_ty_valueTable function)
  have hvalue : (deriveValueOwners function (valueTable function) layouts).value
      = (function.places.zipIdx.foldlM (registerOwner (valueTable function) layouts)
        (List.replicate (valueTable function).length none)).value := by
    simp [deriveValueOwners]
  unfold replayOwners
  change foldl _ (List.replicate ((replayDefinitions function).foldl _ 0) none) _ = _
  rw [hvalue, h.valueCount, hcount]
  symm
  apply value_foldlM
  rintro owners ⟨place, id⟩ hmem
  exact value_registerOwner h (mem_zipIdx_iff_getElem?.mp hmem) owners

end

/-! ### The call at the site -/

/-- Forget the variants of the places that satisfy `p`. -/
def clearVariants (p : ℕ → Bool) (variants : List (Option ℕ)) : List (Option ℕ) :=
  variants.mapIdx fun place variant => if p place then none else variant

theorem clearVariants_clearVariants (p q : ℕ → Bool) (variants : List (Option ℕ)) :
    clearVariants p (clearVariants q variants) = clearVariants q (clearVariants p variants) := by
  apply ext_getElem?
  intro i
  simp only [clearVariants, getElem?_mapIdx, Option.map_map]
  congr 1
  funext variant
  by_cases hp : p i = true <;> by_cases hq : q i = true <;> simp [hp, hq]

theorem variants_markMoved (owner : ℕ) (function : Function) (flow : OwnershipFlow) :
    (markMoved owner function flow).variants
      = clearVariants (fun place => place = owner || isProjectionBelow place owner function.places)
        flow.variants := by
  apply ext_getElem?
  intro i
  simp only [markMoved, setBelow, clearVariants, getElem?_mapIdx, getElem?_set]
  by_cases hi : owner = i
  · subst hi
    by_cases hlt : owner < flow.variants.length <;> simp [hlt]
  · simp [hi, Ne.symm hi]

theorem exists_invalidateCallVariants (kind : InstructionKind) (function : Function)
    (borrows : BorrowIndex) :
    ∃ p, ∀ variants, invalidateCallVariants kind function borrows variants
      = clearVariants p variants := by
  have hnone : ∀ variants : List (Option ℕ), clearVariants (fun _ => false) variants = variants := by
    intro variants
    apply ext_getElem?
    intro i
    simp [clearVariants]
  have hborrow : ∀ borrow, ∃ p, ∀ variants,
      invalidateBorrowVariants function borrows borrow variants = clearVariants p variants := by
    intro borrow
    cases hregion : borrows.region borrow with
    | none => exact ⟨fun _ => false, fun variants => by
        simp only [invalidateBorrowVariants, hregion, hnone]⟩
    | some region =>
      refine ⟨fun place => decide (place < function.places.length ∧
        (place = region ∨ isProjectionBelow place region function.places = true)), ?_⟩
      intro variants
      simp [invalidateBorrowVariants, hregion, clearVariants]
  have hcompose : ∀ p q : ℕ → Bool, ∀ variants,
      clearVariants q (clearVariants p variants) = clearVariants (fun i => q i || p i) variants := by
    intro p q variants
    apply ext_getElem?
    intro i
    simp only [clearVariants, getElem?_mapIdx, Option.map_map]
    congr 1
    funext variant
    by_cases hp : p i = true <;> by_cases hq : q i = true <;> simp [hp, hq]
  unfold invalidateCallVariants
  cases kind with
  | directCall callee arguments cleanup =>
    -- every exclusive argument adds its region to what is forgotten
    simp only
    induction borrowArguments arguments with
    | nil => exact ⟨fun _ => false, fun variants => by simp [hnone]⟩
    | cons borrow rest ih =>
      obtain ⟨q, hq⟩ := ih
      by_cases haccess : (borrows.definition borrow).any (·.2 = .exclusive)
      · obtain ⟨p, hp⟩ := hborrow borrow
        refine ⟨fun i => q i || p i, fun variants => ?_⟩
        rw [foldl_cons, ← hcompose, ← hp, ← hq]
        exact congrArg (foldl _ · rest) (if_pos haccess)
      · refine ⟨q, fun variants => ?_⟩
        rw [foldl_cons, ← hq]
        exact congrArg (foldl _ · rest) (if_neg haccess)
  | _ => exact ⟨fun _ => false, fun variants => (hnone variants).symm⟩

/-- A flow that has forgotten the variants of the places that satisfy `p`. -/
def OwnershipFlow.clear (p : ℕ → Bool) (flow : OwnershipFlow) : OwnershipFlow :=
  { flow with variants := clearVariants p flow.variants }

theorem markMoved_clear (p : ℕ → Bool) (owner : ℕ) (function : Function) (flow : OwnershipFlow) :
    markMoved owner function (flow.clear p) = (markMoved owner function flow).clear p := by
  have hvariants : (markMoved owner function (flow.clear p)).variants
      = clearVariants p (markMoved owner function flow).variants := by
    rw [variants_markMoved, variants_markMoved, OwnershipFlow.clear, clearVariants_clearVariants]
  exact congrArg (OwnershipFlow.mk _ · _) hvariants

/-- Handing over a value neither reads the variants nor sets one. -/
theorem transferConsumedValue_clear (p : ℕ → Bool) (valueOwners : ValueOwners)
    (function : Function) (span : Span) (flow : OwnershipFlow) (value : ℕ) :
    (transferConsumedValue valueOwners function span (flow.clear p) value).value
      = (transferConsumedValue valueOwners function span flow value).value.clear p := by
  unfold transferConsumedValue removePendingOwner
  have hstate : ∀ owner, (flow.clear p).state owner = flow.state owner := fun _ => rfl
  have hslot : ∀ owner, pendingSlot (flow.clear p) owner = pendingSlot flow owner := fun _ => rfl
  cases ownerOf valueOwners value with
  | none => rfl
  | some owner =>
    simp only [hstate, hslot]
    by_cases hinitialized : flow.state owner ≠ .initialized
    · simp only [if_pos hinitialized, value_bind, value_pure]
    · simp only [if_neg hinitialized]
      cases pendingSlot flow owner with
      | none => rfl
      | some slot =>
        exact markMoved_clear p owner function { flow with pending := flow.pending.eraseIdx slot }

theorem transferConsumedValues_clear (p : ℕ → Bool) (values : List ℕ) (valueOwners : ValueOwners)
    (function : Function) (span : Span) (flow : OwnershipFlow) :
    (transferConsumedValues values valueOwners function (flow.clear p) span).value
      = (transferConsumedValues values valueOwners function flow span).value.clear p := by
  unfold transferConsumedValues
  induction values generalizing flow with
  | nil => rfl
  | cons value values ih =>
    rw [foldlM_cons, foldlM_cons, value_bind, value_bind, transferConsumedValue_clear, ih]

theorem value_replayTarget (context : FlowContext) (instruction : Instruction)
    (flow : OwnershipFlow) :
    (replayTarget context instruction flow).value
      = (transferCall instruction context.valueOwners context.function context.borrows
        flow).value := by
  unfold replayTarget transferCall
  by_cases hcall : isDirectCall instruction.kind = true
  · obtain ⟨p, hp⟩ := exists_invalidateCallVariants instruction.kind context.function
      context.borrows
    simp only [hcall, if_true, value_bind, value_pure, hp]
    exact (transferConsumedValues_clear p _ _ _ _ flow).symm
  · simp [hcall]

theorem value_replaySite (context : FlowContext) (index : ℕ) (block : Block) (flow : OwnershipFlow)
    (position : ℕ) :
    (replaySite context index block flow position).value
      = siteFlow context index block flow position := by
  unfold replaySite siteFlow
  cases hinstruction : block.instructions[position]? with
  | some instruction => simp [value_replayTarget]
  | none => cases block.terminators <;> simp

/-! ### The traversal of the replay -/

def ReplayState.traversal (state : ReplayState) : FirstArrival.State OwnershipFlow :=
  ⟨state.entries, state.queue⟩

section Rounds

variable (context : FlowContext)

/-- Where arrival is functional, the replay takes in what the verifier compared. -/
theorem recorded_replayEdges
    (hunique : ∀ n a b, FlowArrives context n a → FlowArrives context n b → a = b)
    {arrivals : List (ℕ × OwnershipFlow)} (harrivals : ∀ p ∈ arrivals, FlowArrives context p.1 p.2) :
    ∀ state : ReplayState, (∀ p ∈ arrivals, p.1 < state.entries.length) →
      (∀ n a, recorded state.entries n = some a → FlowArrives context n a) →
      Recorded arrivals state.traversal
        (arrivals.foldl (fun state p => replayArrival state p.1 p.2) state).traversal := by
  induction arrivals with
  | nil => intro state _ _; exact Recorded.refl _
  | cons p arrivals ih =>
    intro state hlt hsound
    obtain ⟨target, incoming⟩ := p
    have hfirst : Recorded [(target, incoming)] state.traversal
        (replayArrival state target incoming).traversal := by
      unfold replayArrival
      cases hentry : (state.entries[target]?).join with
      | none =>
        simp only
        exact Recorded.first incoming (hlt (target, incoming) (by simp)) hentry (by simp [or_comm,
          ReplayState.traversal]) (by simp [ReplayState.traversal])
      | some existing =>
        obtain rfl : existing = incoming :=
          hunique target _ _ (hsound _ _ hentry) (harrivals (target, incoming) (by simp))
        exact Recorded.known hentry
    have hlength : (replayArrival state target incoming).entries.length = state.entries.length :=
      hfirst.length_eq
    refine hfirst.trans (ih (fun q hq => harrivals q (by simp [hq])) _ ?_ ?_)
    · intro q hq
      rw [hlength]
      exact hlt q (by simp [hq])
    · intro n a hn
      obtain hn | ⟨-, hn⟩ := hfirst.fresh n a hn
      · exact hsound n a hn
      · obtain ⟨rfl, rfl⟩ : n = target ∧ a = incoming := by simpa using hn
        exact harrivals (n, a) (by simp)

variable {block : Block}

theorem replayEdges_eq {index : ℕ} (hblock : context.function.blocks[index]? = some block)
    (flow : OwnershipFlow) (state : ReplayState) :
    replayEdges context block
        (replayBlock context index block flow block.instructions.length).value.1 state
      = (blockArrivals context index flow).foldl
        (fun state p => replayArrival state p.1 p.2) state := by
  unfold replayEdges blockArrivals blockFlow
  cases hterminators : block.terminators with
  | nil => simp [hblock, hterminators]
  | cons terminator rest =>
    simp only [hblock, hterminators, foldl_map]

/-- The replay stops at its target once the target arrives. -/
theorem replayRounds_eq (hedges : EdgesInside context.function)
    (hunique : ∀ n a b, FlowArrives context n a → FlowArrives context n b → a = b)
    {target position : ℕ} {flow : OwnershipFlow}
    (hblock : context.function.blocks[target]? = some block)
    (hposition : position ≤ block.instructions.length) (harrives : FlowArrives context target flow)
    (fuel : ℕ) :
    ∀ {state : ReplayState},
      Explored (blockArrivals context) 0 (initialFlow context.function context.valueOwners)
        state.traversal →
      state.entries.length = context.function.blocks.length →
      (∀ a, recorded state.entries target = some a → target ∈ state.queue) →
      state.traversal.budget ≤ fuel →
      replayRounds context target position fuel state
        = some (siteFlow context target block flow position) := by
  -- once the queue is empty the target has its flow, and its flow put it into the queue
  have hqueued : ∀ {state : ReplayState},
      Explored (blockArrivals context) 0 (initialFlow context.function context.valueOwners)
        state.traversal →
      (∀ a, recorded state.entries target = some a → target ∈ state.queue) →
      state.queue ≠ [] := by
    intro state hexplored htarget hempty
    have := htarget flow (hexplored.recorded_of_arrives hempty harrives)
    simp [hempty] at this
  induction fuel with
  | zero =>
    intro state hexplored _ htarget hbudget
    refine absurd (length_eq_zero_iff.mp (Nat.le_zero.mp ?_)) (hqueued hexplored htarget)
    exact Nat.le_trans (Nat.le_add_left _ _) hbudget
  | succ fuel ih =>
    intro state hexplored hlength htarget hbudget
    rw [replayRounds]
    cases hqueue : state.queue with
    | nil => exact absurd hqueue (hqueued hexplored htarget)
    | cons index queue =>
      obtain ⟨entry, hentry⟩ : ∃ a, recorded state.entries index = some a :=
        hexplored.queued index (by
          change index ∈ state.queue
          simp [hqueue])
      have hlt : index < context.function.blocks.length := by
        rw [← hlength]
        by_contra hge
        simp [recorded, getElem?_eq_none (Nat.le_of_not_lt hge)] at hentry
      have hfound := getElem?_eq_getElem hlt
      have hjoin : (state.entries[index]?).join = some entry := hentry
      simp only [hjoin, hfound]
      by_cases hindex : index = target
      · subst hindex
        obtain rfl : context.function.blocks[index] = block := by simpa [hfound] using hblock
        obtain rfl : entry = flow :=
          hunique index _ _ (hexplored.sound _ _ hentry) harrives
        rw [if_pos ⟨rfl, hposition⟩, value_replaySite]
      · rw [if_neg (fun h => hindex h.1), replayEdges_eq context hfound]
        have harrivals : ∀ p ∈ blockArrivals context index entry, FlowArrives context p.1 p.2 :=
          fun p hp => .step (hexplored.sound _ _ hentry) hp
        have hinside : ∀ p ∈ blockArrivals context index entry, p.1 < state.entries.length := by
          intro p hp
          obtain ⟨terminator, hterminator, hall⟩ := hedges _ (getElem_mem hlt)
          simp only [blockArrivals, hfound, hterminator, mem_map] at hp
          obtain ⟨⟨edge, edgeIndex⟩, hedge, rfl⟩ := hp
          rw [hlength]
          exact hall edge (fst_mem_of_mem_zipIdx hedge)
        have hrecorded := recorded_replayEdges context hunique harrivals
          { state with queue := queue } hinside hexplored.sound
        refine ih (hexplored.round hqueue hentry hrecorded) (hrecorded.length_eq.trans hlength) ?_ ?_
        · intro a ha
          obtain hold | ⟨hq, -⟩ := hrecorded.fresh target a ha
          · have hq := htarget a hold
            rw [hqueue] at hq
            obtain rfl | hq := mem_cons.mp hq
            · exact absurd rfl hindex
            · exact hrecorded.queue_subset target hq
          · exact hq
        · have := Explored.budget_lt (s := state.traversal) hqueue hrecorded
          omega

end Rounds

/-! ### Agreement -/

/-- The scalars and `String`. -/
def stringLayouts (target : StorageTarget) : VerifiedLayouts where
  sourceMapIdentity := 0
  universeIdentity := []
  target := target
  records := [⟨0, .bool, 1, 0⟩, ⟨1, .i32, 4, 0⟩, ⟨2, .string, 12, 2⟩]
  fingerprint := []
  isSealed := sealed_of_ordered (by decide)

def stringSources : SourceMap where
  id := 0
  files := [⟨⟨0, 0⟩, "src/main.zry", "f"⟩]
  files_le := by decide
  id_eq i file hfile := by
    cases i with
    | zero =>
      cases hfile
      rfl
    | succ i => cases hfile
  text_le := by decide

/-- Takes a string, returns a number and drops the string. -/
def stringFunction : Function :=
  let span : Span := ⟨⟨0, 0⟩, 0, 1⟩
  ⟨⟨0, 0⟩, none, span, [⟨0, 2, span⟩], [], 1, [⟨0, 2, span, .parameter 0⟩],
    [⟨0, [], [⟨some ⟨1, 1, span⟩, span, .i32Literal 7⟩], [⟨span, .return 1 0⟩]⟩],
    [⟨0, span, [.dropPlace 0]⟩]⟩

def stringProgram : Program :=
  ⟨⟨.ownershipRuntimeV1, [], [], []⟩, 0, [⟨0, ⟨0, 0⟩, 0, [stringFunction]⟩]⟩

end Zryna.Ir.DataOwnership
