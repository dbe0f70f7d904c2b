import Zryna.Foundation.FirstArrival
import Zryna.Ir.DataOwnership.Shape

/-!
# The dataflow as a solution on all paths

A path through a function is a list of edge positions. `pathFlow` folds the transfer functions of
instructions and edges along a path from the entry. `dataflow_solved` says that a dataflow run that
reports nothing has recorded, for every block, the one flow that *every* path to the block delivers,
and has checked every cleanup plan against the flow at its site.
-/

namespace Zryna.Ir.DataOwnership

open Layout Report FirstArrival List

variable (context : FlowContext)

/-! ### Paths -/

/-- The flow behind the last instruction of a block that is entered with `flow`. -/
def blockFlow (index : ℕ) (block : Block) (flow : OwnershipFlow) : OwnershipFlow :=
  (replayBlock context index block flow block.instructions.length).value.1

/-- What the edges of a block deliver when the block is entered with `flow`. -/
def blockArrivals (index : ℕ) (flow : OwnershipFlow) : List (ℕ × OwnershipFlow) :=
  match context.function.blocks[index]? with
  | none => []
  | some block =>
    match block.terminators with
    | [] => []
    | terminator :: _ =>
      (terminatorEdges terminator.kind).zipIdx.map fun (edge, edgeIndex) =>
        (edge.target,
          (edgeFlow context terminator edgeIndex edge (blockFlow context index block flow)).value)

/-- One step of a path. -/
def followEdge (point : ℕ × OwnershipFlow) (edgeIndex : ℕ) : Option (ℕ × OwnershipFlow) :=
  (blockArrivals context point.1 point.2)[edgeIndex]?

/-- The block a path from the entry leads to, and the flow at its entry. -/
def pathFlow (path : List ℕ) : Option (ℕ × OwnershipFlow) :=
  path.foldlM (followEdge context) (0, initialFlow context.function context.valueOwners)

/-- The flow at a site of a block that is entered with `flow`: a call has handed over its arguments
and a return its value. -/
def siteFlow (index : ℕ) (block : Block) (flow : OwnershipFlow) (position : ℕ) : OwnershipFlow :=
  let inside := (replayBlock context index block flow position).value.1
  match block.instructions[position]?, block.terminators with
  | some instruction, _ =>
    (transferCall instruction context.valueOwners context.function context.borrows inside).value
  | none, terminator :: _ => (terminatorFlow context terminator inside).value
  | none, [] => inside

abbrev FlowArrives : ℕ → OwnershipFlow → Prop :=
  Arrives (blockArrivals context) 0 (initialFlow context.function context.valueOwners)

theorem flowArrives_iff_pathFlow {block : ℕ} {flow : OwnershipFlow} :
    FlowArrives context block flow ↔ ∃ path, pathFlow context path = some (block, flow) := by
  constructor
  · intro h
    induction h with
    | start => exact ⟨[], rfl⟩
    | step _ hmem ih =>
      obtain ⟨path, hpath⟩ := ih
      obtain ⟨edgeIndex, hedge⟩ := mem_iff_getElem?.mp hmem
      refine ⟨path ++ [edgeIndex], ?_⟩
      rw [pathFlow, foldlM_append]
      change (pathFlow context path).bind _ = _
      rw [hpath]
      simpa [followEdge] using hedge
  · rintro ⟨path, hpath⟩
    induction path using List.reverseRecOn generalizing block flow with
    | nil =>
      obtain ⟨rfl, rfl⟩ : 0 = block ∧ initialFlow context.function context.valueOwners = flow := by
        simpa [pathFlow] using hpath
      exact .start
    | append_singleton path edgeIndex ih =>
      rw [pathFlow, foldlM_append] at hpath
      change (pathFlow context path).bind _ = _ at hpath
      obtain ⟨⟨node, before⟩, hbefore, hlast⟩ := Option.bind_eq_some_iff.mp hpath
      have hedge : (blockArrivals context node before)[edgeIndex]? = some (block, flow) := by
        simpa [followEdge] using hlast
      exact .step (ih hbefore) (mem_of_getElem? hedge)

/-! ### Instructions of a block -/

/-- The flow and the active borrows behind one instruction. -/
theorem value_verifyInstruction (block : ℕ) (state : BlockState) (instruction : Instruction)
    (index : ℕ) :
    ((verifyInstruction context block state (instruction, index)).value.flow,
      (verifyInstruction context block state (instruction, index)).value.active)
      = (replayInstruction context (state.flow, state.active) instruction).value := by
  simp [verifyInstruction, replayInstruction]

theorem map_instructionPlans (instruction : Instruction) (flow : OwnershipFlow) :
    (instructionPlans instruction context.valueOwners context.function context.layouts
      context.borrows flow).map Prod.fst = instructionReferences instruction.kind := by
  unfold instructionPlans instructionReferences
  rw [map_append]
  congr 1
  · cases instructionCleanup instruction.kind <;> simp
  · cases hkind : instruction.kind with
    | vecClone place cleanup elementCleanup => cases elementCleanup <;> simp [prefixCleanup]
    | clonePlace place cleanup elementCleanup => cases elementCleanup <;> simp [prefixCleanup]
    | _ => simp [prefixCleanup]

variable {index : ℕ}

/-- The plans an instruction adds to the log. -/
theorem mem_checked_verifyInstruction {block : ℕ} {state : BlockState} {instruction : Instruction}
    {site : CleanupSite} {flow : OwnershipFlow} :
    (site, flow) ∈ (verifyInstruction context block state (instruction, index)).value.checked
      ↔ (site, flow) ∈ state.checked ∨ site.block = block ∧ site.instruction = index
        ∧ site.plan ∈ instructionReferences instruction.kind
        ∧ flow = (transferCall instruction context.valueOwners context.function context.borrows
          state.flow).value := by
  rw [← map_instructionPlans context instruction
    (transferCall instruction context.valueOwners context.function context.borrows
      state.flow).value]
  obtain ⟨b, i, plan⟩ := site
  simp only [verifyInstruction, value_bind, value_pure, mem_append, mem_map,
    Prod.mk.injEq, CleanupSite.mk.injEq]
  constructor
  · rintro (h | ⟨⟨plan', check⟩, hmem, ⟨rfl, rfl, rfl⟩, rfl⟩)
    · exact .inl h
    · exact .inr ⟨rfl, rfl, ⟨_, hmem, rfl⟩, rfl⟩
  · rintro (h | ⟨rfl, rfl, ⟨entry, hmem, rfl⟩, rfl⟩)
    · exact .inl h
    · exact .inr ⟨entry, hmem, ⟨rfl, rfl, rfl⟩, rfl⟩

/-- The walk over the instructions of a block, as the replay computes it. -/
theorem foldlM_verifyInstruction (block : ℕ) (instructions : List Instruction)
    (state : BlockState) :
    let final := (instructions.zipIdx.foldlM (verifyInstruction context block) state).value
    (final.flow, final.active)
        = (instructions.foldlM (replayInstruction context) (state.flow, state.active)).value
      ∧ ∀ site flow, (site, flow) ∈ final.checked ↔ (site, flow) ∈ state.checked
        ∨ site.block = block ∧ ∃ instruction, instructions[site.instruction]? = some instruction
          ∧ site.plan ∈ instructionReferences instruction.kind
          ∧ flow = (transferCall instruction context.valueOwners context.function context.borrows
            ((instructions.take site.instruction).foldlM (replayInstruction context)
              (state.flow, state.active)).value.1).value := by
  induction instructions using List.reverseRecOn with
  | nil => simp
  | append_singleton instructions last ih =>
    obtain ⟨hflow, hchecked⟩ := ih
    simp only [zipIdx_append, zipIdx_cons, zipIdx_nil, Nat.zero_add,
      foldlM_append, foldlM_cons, foldlM_nil, bind_pure, value_bind]
    set before := (instructions.zipIdx.foldlM (verifyInstruction context block) state).value
    refine ⟨by rw [value_verifyInstruction, hflow], ?_⟩
    intro site flow
    rw [mem_checked_verifyInstruction, hchecked, or_assoc]
    apply or_congr Iff.rfl
    have hbefore : before.flow
        = (instructions.foldlM (replayInstruction context) (state.flow, state.active)).value.1 :=
      congrArg Prod.fst hflow
    -- a site lies inside the prefix or at the last instruction
    rcases Nat.lt_trichotomy site.instruction instructions.length with hlt | heq | hgt
    · have htake : (instructions ++ [last]).take site.instruction
          = instructions.take site.instruction :=
        take_append_of_le_length (Nat.le_of_lt hlt)
      simp only [getElem?_append_left hlt, htake, Nat.ne_of_lt hlt, false_and, and_false,
        or_false]
    · simp [heq, hbefore]
    · have hnone : instructions[site.instruction]? = none :=
        getElem?_eq_none (Nat.le_of_lt hgt)
      have hend : (instructions ++ [last])[site.instruction]? = none :=
        getElem?_eq_none (by simpa using Nat.succ_le_of_lt hgt)
      simp [hnone, hend, Nat.ne_of_gt hgt]

theorem value_terminatorFlow {terminator : SpannedTerminator}
    (h : terminatorEdges terminator.kind ≠ []) (flow : OwnershipFlow) :
    (terminatorFlow context terminator flow).value = flow := by
  unfold terminatorFlow
  cases hkind : terminator.kind <;> simp_all [terminatorEdges]

/-- The terminator's part of the walk. -/
theorem value_verifyTerminatorFlow (block : ℕ) (state : BlockState) (position : ℕ)
    (terminator : SpannedTerminator) :
    let final := (verifyTerminatorFlow context block state position terminator).value
    final.flow = (terminatorFlow context terminator state.flow).value
      ∧ final.active = state.active
      ∧ final.checked = state.checked
        ++ (terminatorCleanup terminator.kind).toList.map fun plan =>
          (⟨block, position, plan⟩, (terminatorFlow context terminator state.flow).value) := by
  cases hcleanup : terminatorCleanup terminator.kind <;>
    simp [verifyTerminatorFlow, hcleanup]

theorem mem_blockReferences {block : Block} {terminator : SpannedTerminator}
    (hterminator : block.terminators = [terminator]) {site : CleanupSite} :
    site ∈ blockReferences index block ↔ site.block = index
      ∧ ((∃ instruction, block.instructions[site.instruction]? = some instruction
          ∧ site.plan ∈ instructionReferences instruction.kind)
        ∨ site.instruction = block.instructions.length
          ∧ site.plan ∈ (terminatorCleanup terminator.kind).toList) := by
  obtain ⟨b, i, plan⟩ := site
  simp only [blockReferences, hterminator, mem_append, mem_flatMap, mem_map,
    CleanupSite.mk.injEq, head?_cons, Option.toList_some, mem_singleton,
    exists_eq_left, Prod.exists, mem_zipIdx_iff_getElem?]
  constructor
  · rintro (⟨instruction, i', hget, plan', hplan, rfl, rfl, rfl⟩ | ⟨plan', hplan, rfl, rfl, rfl⟩)
    · exact ⟨rfl, .inl ⟨instruction, hget, hplan⟩⟩
    · exact ⟨rfl, .inr ⟨rfl, hplan⟩⟩
  · rintro ⟨rfl, ⟨instruction, hget, hplan⟩ | ⟨rfl, hplan⟩⟩
    · exact .inl ⟨instruction, i, hget, plan, hplan, rfl, rfl, rfl⟩
    · exact .inr ⟨plan, hplan, rfl, rfl, rfl⟩

/-! ### Edges -/

theorem mem_insertAscending {x y : ℕ} {xs : List ℕ} :
    y ∈ insertAscending x xs ↔ y = x ∨ y ∈ xs := by
  induction xs with
  | nil => simp [insertAscending]
  | cons z zs ih =>
    unfold insertAscending
    split_ifs with hlt heq
    · simp
    · simp [heq]
    · rw [mem_cons, ih, mem_cons]
      tauto

theorem length_insertAscending_le (x : ℕ) (xs : List ℕ) :
    (insertAscending x xs).length ≤ xs.length + 1 := by
  induction xs with
  | nil => simp [insertAscending]
  | cons z zs ih =>
    unfold insertAscending
    split_ifs
    · simp
    · simp
    · simpa using ih

/-- The part of the dataflow state that the traversal is about. -/
def DataflowState.traversal (state : DataflowState) : FirstArrival.State OwnershipFlow :=
  ⟨state.entries, state.queue⟩

variable {state : DataflowState}

theorem recorded_recordArrival {span : Span} {target : ℕ} {incoming : OwnershipFlow}
    (hlt : target < state.entries.length) (h : (recordArrival span state target incoming).Clean) :
    Recorded [(target, incoming)] state.traversal
        (recordArrival span state target incoming).value.traversal
      ∧ (recordArrival span state target incoming).value.checked = state.checked := by
  unfold recordArrival at h ⊢
  split at h
  · rename_i hnone
    refine ⟨?_, rfl⟩
    exact Recorded.first incoming hlt hnone (fun n => mem_insertAscending)
      (length_insertAscending_le _ _)
  · rename_i existing hsome
    rw [clean_bind, clean_pushIf, not_not] at h
    refine ⟨?_, rfl⟩
    exact Recorded.known (by rw [← h.1]; exact hsome)

theorem recorded_verifyEdges {block : BlockState} {terminator : SpannedTerminator}
    {edges : List (Edge × ℕ)} :
    ∀ {state : DataflowState}, (∀ entry ∈ edges, entry.1.target < state.entries.length) →
      (edges.foldlM (verifyEdge context block terminator) state).Clean →
      Recorded (edges.map fun (edge, edgeIndex) =>
          (edge.target, (edgeFlow context terminator edgeIndex edge block.flow).value))
        state.traversal (edges.foldlM (verifyEdge context block terminator) state).value.traversal
      ∧ (edges.foldlM (verifyEdge context block terminator) state).value.checked
        = state.checked := by
  induction edges with
  | nil => intro state _ _; exact ⟨Recorded.refl _, rfl⟩
  | cons entry edges ih =>
    intro state hlt h
    obtain ⟨edge, edgeIndex⟩ := entry
    rw [foldlM_cons, clean_bind] at h
    have hfirst := h.1
    simp only [verifyEdge, clean_bind] at hfirst
    obtain ⟨hrecorded, hchecked⟩ :=
      recorded_recordArrival (hlt (edge, edgeIndex) (by simp)) hfirst.2.2
    have hvalue : (verifyEdge context block terminator state (edge, edgeIndex)).value
        = (recordArrival terminator.span state edge.target
          (edgeFlow context terminator edgeIndex edge block.flow).value).value := by
      simp [verifyEdge]
    rw [hvalue] at h
    obtain ⟨hrest, hcheckedRest⟩ := ih
      (fun other hother => by
        have hlength : (recordArrival terminator.span state edge.target
            (edgeFlow context terminator edgeIndex edge block.flow).value).value.entries.length
            = state.entries.length := hrecorded.length_eq
        rw [hlength]
        exact hlt other (by simp [hother])) h.2
    rw [foldlM_cons, value_bind, hvalue]
    exact ⟨hrecorded.trans hrest, hcheckedRest.trans hchecked⟩

/-! ### Rounds -/

/-- What a round does with the block it takes off the queue. -/
theorem verifyBlockFlow_spec {block : Block} {flow : OwnershipFlow} {terminator : SpannedTerminator}
    (hblock : context.function.blocks[index]? = some block)
    (hterminator : block.terminators = [terminator])
    (hedges : ∀ edge ∈ terminatorEdges terminator.kind, edge.target < state.entries.length)
    (h : (verifyBlockFlow context state index block flow).Clean) :
    Recorded (blockArrivals context index flow) state.traversal
        (verifyBlockFlow context state index block flow).value.traversal
      ∧ ∀ site checked, (site, checked)
          ∈ (verifyBlockFlow context state index block flow).value.checked
        ↔ (site, checked) ∈ state.checked ∨ site ∈ blockReferences index block
          ∧ checked = siteFlow context index block flow site.instruction := by
  simp only [verifyBlockFlow, hterminator, clean_bind] at h
  simp only [verifyBlockFlow, hterminator, value_bind]
  obtain ⟨-, -, hclean⟩ := h
  obtain ⟨hinside, hlog⟩ := foldlM_verifyInstruction context index block.instructions
    ⟨flow, context.borrows.entryActive context.function index, state.checked⟩
  set inner := (block.instructions.zipIdx.foldlM (verifyInstruction context index)
    ⟨flow, context.borrows.entryActive context.function index, state.checked⟩).value
  obtain ⟨hflow, -, hchecked⟩ := value_verifyTerminatorFlow context index inner
    block.instructions.length terminator
  have hlast : inner.flow = blockFlow context index block flow := by
    rw [blockFlow, replayBlock, take_length]
    exact congrArg Prod.fst hinside
  have htargets : ∀ entry ∈ (terminatorEdges terminator.kind).zipIdx,
      entry.1.target < state.entries.length :=
    fun entry hentry => hedges entry.1 (fst_mem_of_mem_zipIdx hentry)
  obtain ⟨hrecorded, hedgesChecked⟩ :=
    recorded_verifyEdges context (by exact htargets) hclean
  constructor
  · -- a terminator with edges leaves the flow alone
    have harrivals : blockArrivals context index flow
        = (terminatorEdges terminator.kind).zipIdx.map fun (edge, edgeIndex) =>
          (edge.target, (edgeFlow context terminator edgeIndex edge
            (verifyTerminatorFlow context index inner block.instructions.length
              terminator).value.flow).value) := by
      simp only [blockArrivals, hblock, hterminator]
      apply map_congr_left
      intro entry hentry
      have hne : terminatorEdges terminator.kind ≠ [] :=
        ne_nil_of_mem (fst_mem_of_mem_zipIdx hentry)
      rw [hflow, value_terminatorFlow context hne, hlast]
    rw [harrivals]
    exact hrecorded
  · intro site checked
    rw [hedgesChecked]
    simp only [hchecked, mem_append, hlog, mem_map, Option.mem_toList, or_assoc]
    apply or_congr Iff.rfl
    rw [mem_blockReferences hterminator]
    obtain ⟨b, i, plan⟩ := site
    simp only [Prod.mk.injEq, CleanupSite.mk.injEq, Option.mem_toList]
    constructor
    · rintro (⟨rfl, instruction, hget, hplan, rfl⟩ | ⟨plan', hplan, ⟨rfl, rfl, rfl⟩, rfl⟩)
      · refine ⟨⟨rfl, .inl ⟨instruction, hget, hplan⟩⟩, ?_⟩
        simp only [siteFlow, hget, replayBlock]
      · refine ⟨⟨rfl, .inr ⟨rfl, hplan⟩⟩, ?_⟩
        rw [hlast]
        simp [siteFlow, hterminator, blockFlow]
    · rintro ⟨⟨rfl, ⟨instruction, hget, hplan⟩ | ⟨rfl, hplan⟩⟩, rfl⟩
      · refine .inl ⟨rfl, instruction, hget, hplan, ?_⟩
        simp only [siteFlow, hget, replayBlock]
      · refine .inr ⟨plan, hplan, ⟨rfl, rfl, rfl⟩, ?_⟩
        rw [hlast]
        simp [siteFlow, hterminator, blockFlow]

/-- The edges of a function stay inside it. -/
def EdgesInside (function : Function) : Prop :=
  ∀ block ∈ function.blocks, ∃ terminator, block.terminators = [terminator]
    ∧ ∀ edge ∈ terminatorEdges terminator.kind, edge.target < function.blocks.length

/-- What holds between the rounds: the traversal is explored, and the log holds the plans of the
blocks that have been visited. -/
structure RoundInvariant (state : DataflowState) : Prop where
  explored : Explored (blockArrivals context) 0
    (initialFlow context.function context.valueOwners) state.traversal
  length_eq : state.entries.length = context.function.blocks.length
  checked_sound : ∀ site flow, (site, flow) ∈ state.checked → ∃ entry block,
    recorded state.entries site.block = some entry
      ∧ context.function.blocks[site.block]? = some block
      ∧ flow = siteFlow context site.block block entry site.instruction
  checked_complete : ∀ n entry block, recorded state.entries n = some entry →
    context.function.blocks[n]? = some block → n ∈ state.queue
      ∨ ∀ site ∈ blockReferences n block,
        (site, siteFlow context n block entry site.instruction) ∈ state.checked

theorem RoundInvariant.round (hedges : EdgesInside context.function)
    (h : RoundInvariant context state) {queue : List ℕ} {flow : OwnershipFlow} {block : Block}
    (hqueue : state.queue = index :: queue) (hflow : recorded state.entries index = some flow)
    (hblock : context.function.blocks[index]? = some block)
    (hclean : (verifyBlockFlow context { state with queue := queue } index block flow).Clean) :
    RoundInvariant context
        (verifyBlockFlow context { state with queue := queue } index block flow).value
      ∧ (verifyBlockFlow context { state with queue := queue } index block
          flow).value.traversal.budget < state.traversal.budget := by
  obtain ⟨terminator, hterminator, hinside⟩ := hedges block (mem_of_getElem? hblock)
  have htargets : ∀ edge ∈ terminatorEdges terminator.kind, edge.target < state.entries.length :=
    fun edge hedge => by rw [h.length_eq]; exact hinside edge hedge
  obtain ⟨hrecorded, hlog⟩ := verifyBlockFlow_spec context hblock hterminator (by exact htargets)
    hclean
  set final := (verifyBlockFlow context { state with queue := queue } index block flow).value
  have hkeep : ∀ n a, recorded state.entries n = some a → recorded final.entries n = some a :=
    hrecorded.keep
  refine ⟨⟨h.explored.round hqueue hflow hrecorded, hrecorded.length_eq.trans h.length_eq, ?_, ?_⟩,
    Explored.budget_lt (s := state.traversal) hqueue hrecorded⟩
  · intro site checked hmem
    obtain hmem | ⟨hsite, rfl⟩ := (hlog site checked).mp hmem
    · obtain ⟨entry, other, hentry, hother, rfl⟩ := h.checked_sound site checked hmem
      exact ⟨entry, other, hkeep _ _ hentry, hother, rfl⟩
    · obtain ⟨rfl, -⟩ := (mem_blockReferences hterminator).mp hsite
      exact ⟨flow, block, hkeep _ _ hflow, hblock, rfl⟩
  · intro n entry other hn hother
    obtain hold | ⟨hq, -⟩ := hrecorded.fresh n entry hn
    · obtain hq | hall := h.checked_complete n entry other hold hother
      · rw [hqueue] at hq
        obtain rfl | hq := mem_cons.mp hq
        · obtain rfl : block = other := by simpa [hblock] using hother
          obtain rfl : flow = entry := by simpa using hflow.symm.trans hold
          exact .inr fun site hsite => (hlog _ _).mpr (.inr ⟨hsite, rfl⟩)
        · exact .inl (hrecorded.queue_subset n hq)
      · exact .inr fun site hsite => (hlog _ _).mpr (.inl (hall site hsite))
    · exact .inl hq

theorem dataflowRounds_spec (hedges : EdgesInside context.function) (fuel : ℕ) :
    ∀ {state : DataflowState}, RoundInvariant context state → state.traversal.budget ≤ fuel →
      (dataflowRounds context fuel state).Clean →
      RoundInvariant context (dataflowRounds context fuel state).value
        ∧ (dataflowRounds context fuel state).value.queue = [] := by
  induction fuel with
  | zero =>
    intro state h hbudget _
    refine ⟨h, ?_⟩
    have : state.queue.length ≤ 0 := by
      refine Nat.le_trans ?_ hbudget
      exact Nat.le_add_left _ _
    exact length_eq_zero_iff.mp (Nat.le_zero.mp this)
  | succ fuel ih =>
    intro state h hbudget hclean
    unfold dataflowRounds at hclean ⊢
    cases hqueue : state.queue with
    | nil => simpa [hqueue] using h
    | cons index queue =>
      obtain ⟨flow, hflow⟩ := h.explored.queued index (by
        change index ∈ state.queue
        simp [hqueue])
      have hentry : recorded state.entries index = some flow := hflow
      have hlt : index < context.function.blocks.length := by
        rw [← h.length_eq]
        by_contra hge
        simp [recorded, getElem?_eq_none (Nat.le_of_not_lt hge)] at hentry
      have hblock := getElem?_eq_getElem hlt
      have hjoin : (state.entries[index]?).join = some flow := hentry
      simp only [hqueue, hjoin, hblock, clean_bind, value_bind] at hclean ⊢
      obtain ⟨hinvariant, hless⟩ :=
        h.round context hedges hqueue hentry hblock hclean.1
      exact ih hinvariant (by omega) hclean.2

/-- **The dataflow is solved.** A clean run of the dataflow ends with the flow that every path to a
block delivers, and every plan of every block that a path leads to has been checked against the flow
at its site, and against no other. -/
theorem dataflow_solved (hedges : EdgesInside context.function)
    (hnonempty : 0 < context.function.blocks.length) (hclean : (ownershipDataflow context).Clean) :
    (∀ n a b, FlowArrives context n a → FlowArrives context n b → a = b)
      ∧ ∀ n flow block, FlowArrives context n flow → context.function.blocks[n]? = some block →
        ∀ site ∈ blockReferences n block, ∀ checked,
          (site, checked) ∈ (ownershipDataflow context).value.checked
            ↔ checked = siteFlow context n block flow site.instruction := by
  have hinitial : RoundInvariant context
      ⟨initialEntries context.function context.valueOwners, [0], []⟩ := by
    refine ⟨Explored.initial_state hnonempty, by simp [initialEntries], by simp, ?_⟩
    intro n entry block hn _
    exact .inl (by simp [(recorded_initial hn).1])
  obtain ⟨hfinal, hqueue⟩ := dataflowRounds_spec context hedges _ hinitial
    (Nat.le_of_eq (budget_initial_state _ hnonempty)) hclean
  have hsolved : ∀ n a, FlowArrives context n a →
      recorded (ownershipDataflow context).value.entries n = some a :=
    fun n a ha => hfinal.explored.recorded_of_arrives hqueue ha
  refine ⟨fun n a b ha hb => by simpa [hsolved n a ha] using hsolved n b hb, ?_⟩
  intro n flow block hflow hblock site hsite checked
  obtain ⟨terminator, hterminator, -⟩ := hedges block (mem_of_getElem? hblock)
  obtain ⟨rfl, -⟩ := (mem_blockReferences hterminator).mp hsite
  have hentry := hsolved _ _ hflow
  constructor
  · intro hmem
    obtain ⟨entry, other, hrecorded, hother, rfl⟩ := hfinal.checked_sound site checked hmem
    obtain rfl : block = other := by simpa [hblock] using hother
    obtain rfl : flow = entry := by simpa using hentry.symm.trans hrecorded
    rfl
  · rintro rfl
    obtain hq | hall := hfinal.checked_complete site.block flow block hentry hblock
    · have : (dataflowRounds context context.function.blocks.length
          ⟨initialEntries context.function context.valueOwners, [0], []⟩).value.queue = [] := hqueue
      simp [this] at hq
    · exact hall site hsite

end Zryna.Ir.DataOwnership
