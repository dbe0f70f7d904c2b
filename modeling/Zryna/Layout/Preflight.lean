import Mathlib.Algebra.BigOperators.Group.List.Basic
import Zryna.Foundation.Marking
import Zryna.Foundation.Report
import Zryna.Layout.Raw

/-!
# Preflight of a raw layout graph

The first pass of the aggregate layout verifier: inventories, budgets, the shape and the source of
every node, and reachability. A limit ends the pass in the verifier; here nothing is retained after
it.

`preflight_clean` reads the pass as one condition on the graph, `Admitted`, and
`Raw.Renumbers.admitted` says that the condition does not depend on the numbering of the nodes.
-/

namespace Zryna.Layout.Aggregate

open Raw Report List

def maxTypeNodes : ℕ := 65536
/-- Maximum fields plus variants in one graph. -/
def maxMembers : ℕ := 65536
/-- Maximum fields or variants in one declaration. -/
def maxMembersPerDeclaration : ℕ := 1024
/-- Maximum layout dependency edges. -/
def maxDependencyEdges : ℕ := 262144
/-- Maximum canonical or by-value traversal depth. -/
def maxTraversalDepth : ℕ := 256
/-- Maximum fixed-array length. -/
def maxArrayLength : ℕ := 1048576
/-- Maximum universally stored object size. -/
def maxObjectSize : ℕ := 4294967295

/-! ### Diagnostics -/

def globalError (code message guidance : String) : Diagnostic :=
  Diagnostic.error code none message guidance

/-- A diagnostic at a span, or a global one without a span. -/
def errorAt (span : Option Span) (code message guidance : String) : Diagnostic :=
  match span with
  | some span => Diagnostic.errorAt code span message guidance
  | none => globalError code message guidance

def limitError (label : String) (limit : ℕ) : Diagnostic :=
  globalError "ZRYNA-L3201" s!"{label} exceeds the limit of {limit}"
    "reduce the graph before layout verification"

def limitErrorAt (span : Option Span) (label : String) (limit : ℕ) : Diagnostic :=
  errorAt span "ZRYNA-L3201" s!"{label} exceeds the limit of {limit}"
    "reduce the declaration before layout verification"

def overflowError (span : Option Span) (label : String) : Diagnostic :=
  errorAt span "ZRYNA-L3005" s!"checked {label} is not representable by aggregate layout v1"
    "reduce the stored type before verification"

/-! ### The pass -/

section Pass

variable (graph : Graph)

/-- A reference to a node that carries the identity it is looked up under. -/
def validRef (id : ℕ) : Bool := (graph.types[id]?).any fun node => node.id = id

def verifyNominalRef (span : Option Span) (module declaration : ℕ) : Report Diagnostic Unit :=
  pushIf
    (¬(graph.modules[module]?).any fun candidate =>
      candidate.id = module && declaration < candidate.dataDeclarations)
    (errorAt span "ZRYNA-L3001" "nominal type has an unknown module or declaration identity"
      "bind nominal identities to the authenticated module inventory")

/-- The reference of a container. -/
def verifyContainer (span : Option Span) (element : ℕ) : Report Diagnostic Unit :=
  pushIf (¬validRef graph element)
    (errorAt span "ZRYNA-L3003" "container references an unknown type"
      "use a graph-local type reference")

def verifyPrimitive (span : Option Span) : Report Diagnostic Unit :=
  pushIf span.isSome
    (errorAt span "ZRYNA-L3003" "primitive nodes cannot claim a declaration span"
      "remove the non-nominal span claim")

def verifyNodeShape (node : TypeNode) : Report Diagnostic Unit :=
  match node.kind with
  | .struct module declaration fields => do
    verifyNominalRef graph node.span module declaration
    pushIf (fields = [])
      (errorAt node.span "ZRYNA-L3003" "a stored struct must contain at least one field"
        "add a field or remove the declaration")
    forM fields.zipIdx fun entry =>
      pushIf (entry.1.ordinal ≠ entry.2 ∨ ¬validRef graph entry.1.ty)
        (errorAt node.span "ZRYNA-L3003"
          "struct fields have a noncanonical ordinal or unknown type"
          "use dense source ordinals and graph-local type references")
  | .enum module declaration variants => do
    verifyNominalRef graph node.span module declaration
    pushIf (variants = [])
      (errorAt node.span "ZRYNA-L3003" "a stored enum must contain at least one variant"
        "add a variant or remove the declaration")
    forM variants.zipIdx fun entry =>
      pushIf
        (entry.1.ordinal ≠ entry.2 ∨ entry.1.payload.any fun payload => !validRef graph payload)
        (errorAt node.span "ZRYNA-L3003"
          "enum variants have a noncanonical ordinal or unknown payload type"
          "use dense source ordinals and graph-local payload references")
  | .fixedArray element length =>
    pushIf (¬validRef graph element ∨ length > maxArrayLength)
      (errorAt node.span "ZRYNA-L3003"
        "fixed array has an unknown element type or excessive length"
        s!"use a known element and a length no greater than {maxArrayLength}")
  | .vec element => verifyContainer graph node.span element
  | .shared payload => verifyContainer graph node.span payload
  | .weak payload => verifyContainer graph node.span payload
  | .borrow referent => verifyContainer graph node.span referent
  | .bool | .i32 | .string => verifyPrimitive node.span

/-- A nominal type is declared in a file of its own module. -/
def verifyNodeSource (node : TypeNode) (sources : SourceMap) : Report Diagnostic Unit :=
  match node.kind.nominalIdentity, node.span with
  | none, _ => pure ()
  | some _, none =>
    push (globalError "ZRYNA-L3001"
      "nominal type is missing its authoritative declaration span"
      "retain the exact declaration span from the final SourceMap")
  | some (module, _), some span =>
    match sources.resolve span with
    | .error _ =>
      push (globalError "ZRYNA-L3001"
        "nominal declaration span belongs to a foreign source authority"
        "use a declaration span issued by the exact final SourceMap")
    | .ok _ =>
      pushIf (some span.file ≠ (graph.modules[module]?).map Module.sourceFile)
        (errorAt (some span) "ZRYNA-L3001"
          "nominal declaration span belongs to another module"
          "use a declaration span from the containing module")

/-- One round of the node loop, with the members and edges counted so far. -/
def verifyNode (sources : SourceMap) (counted : ℕ × ℕ) (entry : TypeNode × ℕ) :
    Report Diagnostic (ℕ × ℕ) := do
  let (members, edges) := counted
  let (node, index) := entry
  pushIf (node.id ≠ index)
    (errorAt node.span "ZRYNA-L3001"
      s!"type node #{index} has a duplicate or missing dense identity"
      "provide graph-local node IDs exactly once in dense order")
  let (localMembers, localEdges) := node.kind.memberAndEdgeCount
  limitIf (localMembers > maxMembersPerDeclaration)
    (limitErrorAt node.span "declaration member count" maxMembersPerDeclaration)
  limitIf (members + localMembers > maxMembers)
    (limitError "graph member count" maxMembers)
  limitIf (edges + localEdges > maxDependencyEdges)
    (limitError "layout dependency edge count" maxDependencyEdges)
  verifyNodeShape graph node
  verifyNodeSource graph node sources
  pure (members + localMembers, edges + localEdges)

def primitiveCounts : List ℕ :=
  [graph.types.countP fun node => node.kind = .bool,
    graph.types.countP fun node => node.kind = .i32,
    graph.types.countP fun node => node.kind = .string]

/-- The declarations seen so far, after one more node. -/
def seeNominal (seen : List (ℕ × ℕ)) (node : TypeNode) : Report Diagnostic (List (ℕ × ℕ)) :=
  match node.kind.nominalIdentity with
  | none => pure seen
  | some identity => do
    pushIf (identity ∈ seen)
      (errorAt node.span "ZRYNA-L3001" "duplicate nominal type identity"
        "provide each source declaration exactly once")
    pure (seen.insert identity)

def verifyNominalInventory : Report Diagnostic Unit := do
  let seen ← graph.types.foldlM seeNominal []
  pushIf ((graph.modules.map Module.dataDeclarations).sum ≠ seen.length)
    (globalError "ZRYNA-L3001" "nominal declaration inventory has a missing identity"
      "provide every source-ordered data declaration exactly once")

/-- A type that is stored without being asked for: a primitive or a declaration. -/
def declared (kind : TypeKind) : Bool :=
  match kind with
  | .bool | .i32 | .string | .struct .. | .enum .. => true
  | _ => false

/-- The nodes that the reachability walk starts from. -/
def seeds : List ℕ :=
  (graph.types.filter fun node => declared node.kind).map TypeNode.id ++ graph.programRoots

/-- The children of the node at an index. -/
def childrenAt (index : ℕ) : List ℕ := ((graph.types[index]?).map (·.kind.allChildren)).getD []

def reachableMarks : List Bool :=
  markFrom (fun index => (childrenAt graph index).reverse)
    (List.replicate graph.types.length false) (seeds graph).reverse

def verifyReachability : Report Diagnostic Unit :=
  if graph.programRoots.any fun root => !validRef graph root then
    push (globalError "ZRYNA-L3003" "program roots contain an unknown type reference"
      "provide only graph-local stored program types")
  else
    match (reachableMarks graph).findIdx? (fun reached => !reached) with
    | none => pure ()
    | some index =>
      push (errorAt ((graph.types[index]?).bind TypeNode.span) "ZRYNA-L3003"
        s!"type node #{index} is not reachable from a declaration or program root"
        "remove the orphan claim or retain an authenticated stored program root")

def preflight (sources : SourceMap) : Report Diagnostic Unit :=
  if graph.types.length > maxTypeNodes then
    limit (limitError "type node count" maxTypeNodes)
  else do
    pushIf (graph.modules.length ≠ sources.files.length)
      (globalError "ZRYNA-L3001" "module inventory does not match the final source map"
        "provide every final module exactly once in canonical source order")
    forM graph.modules.zipIdx fun entry => do
      limitIf (entry.2 ≥ 2 ^ 32) (limitError "module identity" (2 ^ 32 - 1))
      pushIf
        (entry.1.id ≠ entry.2
          ∨ (sources.verifyFileId entry.2).toOption ≠ some entry.1.sourceFile)
        (globalError "ZRYNA-L3001"
          s!"module #{entry.2} has a noncanonical or foreign identity"
          "bind dense modules to FileIds from the exact final SourceMap")
    let _ ← graph.types.zipIdx.foldlM (verifyNode graph sources) (0, 0)
    pushIf (primitiveCounts graph ≠ [1, 1, 1])
      (globalError "ZRYNA-L3001"
        "the type universe must contain exactly one bool, i32, and String node"
        "provide the complete canonical primitive universe exactly once")
    verifyNominalInventory graph
    verifyReachability graph

end Pass

/-! ### Admitted graphs -/

/-- What the preflight asks of a graph. -/
structure Admitted (graph : Graph) (sources : SourceMap) : Prop where
  types_le : graph.types.length ≤ maxTypeNodes
  modules_length : graph.modules.length = sources.files.length
  modules : ∀ (i : ℕ) (module : Module), graph.modules[i]? = some module →
    i < 2 ^ 32 ∧ module.id = i ∧ (sources.verifyFileId i).toOption = some module.sourceFile
  id_eq : ∀ (i : ℕ) (node : TypeNode), graph.types[i]? = some node → node.id = i
  local_le : ∀ node ∈ graph.types, node.kind.memberAndEdgeCount.1 ≤ maxMembersPerDeclaration
  members_le : (graph.types.map fun node => node.kind.memberAndEdgeCount.1).sum ≤ maxMembers
  edges_le : (graph.types.map fun node => node.kind.memberAndEdgeCount.2).sum
    ≤ maxDependencyEdges
  shape : ∀ node ∈ graph.types, (verifyNodeShape graph node).Clean
  source : ∀ node ∈ graph.types, (verifyNodeSource graph node sources).Clean
  primitives : primitiveCounts graph = [1, 1, 1]
  nominal_nodup : (graph.types.filterMap fun node => node.kind.nominalIdentity).Nodup
  declarations : (graph.modules.map Module.dataDeclarations).sum
    = (graph.types.filterMap fun node => node.kind.nominalIdentity).length
  roots : ∀ root ∈ graph.programRoots, validRef graph root = true
  reached : ∀ v < graph.types.length,
    Reached (childrenAt graph) graph.types.length (· ∈ seeds graph) v

/-- The node loop is clean when every node is, and the totals are within the budgets. -/
theorem clean_verifyNode_foldlM (graph : Graph) (sources : SourceMap) (nodes : List (TypeNode × ℕ))
    (counted : ℕ × ℕ) (hmembers : counted.1 ≤ maxMembers)
    (hedges : counted.2 ≤ maxDependencyEdges) :
    (nodes.foldlM (verifyNode graph sources) counted).Clean ↔
      (∀ entry ∈ nodes, entry.1.id = entry.2
        ∧ entry.1.kind.memberAndEdgeCount.1 ≤ maxMembersPerDeclaration
        ∧ (verifyNodeShape graph entry.1).Clean ∧ (verifyNodeSource graph entry.1 sources).Clean)
      ∧ counted.1 + (nodes.map fun entry => entry.1.kind.memberAndEdgeCount.1).sum ≤ maxMembers
      ∧ counted.2 + (nodes.map fun entry => entry.1.kind.memberAndEdgeCount.2).sum
        ≤ maxDependencyEdges := by
  induction nodes generalizing counted with
  | nil => simpa using ⟨hmembers, hedges⟩
  | cons entry nodes ih =>
    obtain ⟨node, index⟩ := entry
    rw [foldlM_cons, clean_bind]
    have hround : (verifyNode graph sources counted (node, index)).Clean ↔
        (node.id = index ∧ node.kind.memberAndEdgeCount.1 ≤ maxMembersPerDeclaration
          ∧ (verifyNodeShape graph node).Clean ∧ (verifyNodeSource graph node sources).Clean)
        ∧ counted.1 + node.kind.memberAndEdgeCount.1 ≤ maxMembers
        ∧ counted.2 + node.kind.memberAndEdgeCount.2 ≤ maxDependencyEdges := by
      simp only [verifyNode, clean_bind, clean_pushIf, clean_limitIf,
        clean_pure, not_not, Nat.not_lt, gt_iff_lt]
      tauto
    rw [hround]
    have hvalue : (verifyNode graph sources counted (node, index)).value
        = (counted.1 + node.kind.memberAndEdgeCount.1,
          counted.2 + node.kind.memberAndEdgeCount.2) := rfl
    rw [hvalue]
    constructor
    · rintro ⟨⟨hnode, hmembers', hedges'⟩, hrest⟩
      obtain ⟨hnodes, hsum, hsum'⟩ := (ih _ hmembers' hedges').mp hrest
      refine ⟨fun e he => ?_, ?_, ?_⟩
      · obtain rfl | he := mem_cons.mp he
        · exact hnode
        · exact hnodes e he
      · simpa [Nat.add_assoc] using hsum
      · simpa [Nat.add_assoc] using hsum'
    · rintro ⟨hnodes, hsum, hsum'⟩
      simp only [map_cons, sum_cons, ← Nat.add_assoc] at hsum hsum'
      have hmembers' : counted.1 + node.kind.memberAndEdgeCount.1 ≤ maxMembers := by omega
      have hedges' : counted.2 + node.kind.memberAndEdgeCount.2 ≤ maxDependencyEdges := by omega
      exact ⟨⟨hnodes (node, index) (by simp), hmembers', hedges'⟩,
        (ih _ hmembers' hedges').mpr ⟨fun e he => hnodes e (by simp [he]), hsum, hsum'⟩⟩

/-- The inventory loop is clean when no declaration is seen twice, and then it has counted them. -/
theorem clean_seeNominal_foldlM (nodes : List TypeNode) (seen : List (ℕ × ℕ)) (hseen : seen.Nodup) :
    ((nodes.foldlM seeNominal seen).Clean ↔
      (seen ++ nodes.filterMap fun node => node.kind.nominalIdentity).Nodup)
    ∧ ((nodes.foldlM seeNominal seen).Clean →
      (nodes.foldlM seeNominal seen).value.length
        = seen.length + (nodes.filterMap fun node => node.kind.nominalIdentity).length) := by
  induction nodes generalizing seen with
  | nil => simpa using hseen
  | cons node nodes ih =>
    rw [foldlM_cons, clean_bind, value_bind]
    cases hidentity : node.kind.nominalIdentity with
    | none =>
      have hround : seeNominal seen node = pure seen := by rw [seeNominal, hidentity]
      rw [hround]
      simpa [filterMap_cons, hidentity] using ih seen hseen
    | some identity =>
      have hround : (seeNominal seen node).Clean ↔ identity ∉ seen := by
        simp [seeNominal, hidentity]
      have hvalue : (seeNominal seen node).value = seen.insert identity := by
        simp [seeNominal, hidentity]
      rw [hround, hvalue]
      simp only [filterMap_cons, hidentity]
      by_cases hmem : identity ∈ seen
      · refine ⟨iff_of_false (fun h => h.1 hmem) fun h => ?_, fun h => absurd hmem h.1⟩
        exact (nodup_append.mp h).2.2 _ hmem _ (by simp) rfl
      · rw [insert_of_not_mem hmem]
        obtain ⟨hclean, hlength⟩ := ih (identity :: seen) (nodup_cons.mpr ⟨hmem, hseen⟩)
        refine ⟨?_, fun h => ?_⟩
        · rw [hclean, and_iff_right hmem]
          exact perm_middle.symm.nodup_iff
        · rw [hlength h.2, length_cons, length_cons]
          omega

theorem clean_verifyReachability (graph : Graph) : (verifyReachability graph).Clean ↔
    (∀ root ∈ graph.programRoots, validRef graph root = true)
    ∧ ∀ v < graph.types.length,
      Reached (childrenAt graph) graph.types.length (· ∈ seeds graph) v := by
  have hreached (v : ℕ) : (reachableMarks graph)[v]? = some true ↔
      Reached (childrenAt graph) graph.types.length (· ∈ seeds graph) v := by
    rw [reachableMarks, mem_markFrom]
    constructor
    · exact Reached.map (f := id) (fun v hv => mem_reverse.mp hv)
        (fun u v _ hv => mem_reverse.mp hv) fun _ h => h
    · exact Reached.map (f := id) (fun v hv => mem_reverse.mpr hv)
        (fun u v _ hv => mem_reverse.mpr hv) fun _ h => h
  unfold verifyReachability
  split
  · next hroot =>
    obtain ⟨root, hroot, hinvalid⟩ := any_eq_true.mp hroot
    simp only [not_clean_push, false_iff, not_and]
    intro hroots
    simp [hroots root hroot] at hinvalid
  next hroots =>
  have hroots : ∀ root ∈ graph.programRoots, validRef graph root = true := by
    simpa using hroots
  have hlength : (reachableMarks graph).length = graph.types.length := by
    simp [reachableMarks]
  rw [and_iff_right hroots]
  split
  · next hnone =>
    refine iff_of_true (clean_pure _) fun v hv => ?_
    rw [← hreached]
    rw [findIdx?_eq_none_iff] at hnone
    have hv' : v < (reachableMarks graph).length := hlength ▸ hv
    have := hnone _ (getElem_mem hv')
    rw [getElem?_eq_getElem hv', Option.some.injEq]
    simpa using this
  · next index hsome =>
    refine iff_of_false (not_clean_push _) fun h => ?_
    obtain ⟨hlt, hmark, -⟩ := findIdx?_eq_some_iff_getElem.mp hsome
    have := (hreached index).mpr (h index (hlength ▸ hlt))
    rw [getElem?_eq_getElem hlt, Option.some.injEq] at this
    simp [this] at hmark

theorem preflight_clean (graph : Graph) (sources : SourceMap) :
    (preflight graph sources).Clean ↔ Admitted graph sources := by
  unfold preflight
  split
  · next hlimit =>
    exact iff_of_false (not_clean_limit _) fun h => absurd h.types_le (by omega)
  next hlimit =>
  have hnominal := clean_seeNominal_foldlM graph.types [] nodup_nil
  simp only [nil_append, length_nil, Nat.zero_add] at hnominal
  have hinventory : (verifyNominalInventory graph).Clean ↔
      (graph.types.filterMap fun node => node.kind.nominalIdentity).Nodup
      ∧ (graph.modules.map Module.dataDeclarations).sum
        = (graph.types.filterMap fun node => node.kind.nominalIdentity).length := by
    unfold verifyNominalInventory
    rw [clean_bind, clean_pushIf, not_not, hnominal.1]
    refine and_congr_right fun hnodup => ?_
    rw [hnominal.2 (hnominal.1.mpr hnodup)]
  simp only [clean_bind, clean_pushIf, clean_forM, clean_limitIf,
    Prod.forall, mem_zipIdx_iff_getElem?, not_not, hinventory, clean_verifyReachability,
    clean_verifyNode_foldlM graph sources graph.types.zipIdx (0, 0) (Nat.zero_le _) (Nat.zero_le _)]
  have htotal (f : TypeNode → ℕ) :
      (graph.types.zipIdx.map fun entry => f entry.1) = graph.types.map f := by
    conv_rhs => rw [← zipIdx_map_fst 0 graph.types, map_map]
    rfl
  rw [htotal fun node => node.kind.memberAndEdgeCount.1,
    htotal fun node => node.kind.memberAndEdgeCount.2, Nat.zero_add, Nat.zero_add]
  constructor
  · rintro ⟨hcount, hmodules, ⟨hnodes, hmembers, hedges⟩, hprimitives, ⟨hnodup, hdeclarations⟩,
      hroots, hreached⟩
    have hmem : ∀ node ∈ graph.types, ∃ i, graph.types[i]? = some node :=
      fun node hnode => mem_iff_getElem?.mp hnode
    refine ⟨Nat.not_lt.mp hlimit, hcount, fun i module hi => ?_, fun i node hi => (hnodes node i hi).1,
      fun node hnode => ?_, hmembers, hedges, fun node hnode => ?_, fun node hnode => ?_,
      hprimitives, hnodup, hdeclarations, hroots, hreached⟩
    · obtain ⟨hlt, hmodule⟩ := hmodules module i hi
      rw [not_or, not_not, not_not] at hmodule
      exact ⟨Nat.not_le.mp hlt, hmodule⟩
    all_goals
      obtain ⟨i, hi⟩ := hmem node hnode
      have hchecked := (hnodes node i hi).2
    · exact hchecked.1
    · exact hchecked.2.1
    · exact hchecked.2.2
  · intro h
    refine ⟨h.modules_length, fun module i hi => ?_, ⟨fun node i hi => ?_, h.members_le, h.edges_le⟩,
      h.primitives, ⟨h.nominal_nodup, h.declarations⟩, h.roots, h.reached⟩
    · obtain ⟨hlt, hid, hfile⟩ := h.modules i module hi
      exact ⟨Nat.not_le.mpr hlt, fun hor => hor.elim (fun hne => hne hid) fun hne => hne hfile⟩
    · have hnode := mem_of_getElem? hi
      exact ⟨h.id_eq i node hi, h.local_le node hnode, h.shape node hnode, h.source node hnode⟩

/-! ### Renumbering -/

section Renumbering

variable {σ : Equiv.Perm ℕ} {graph graph' : Graph}

theorem validRef_renumber (h : Renumbers σ graph graph') (id : ℕ) :
    validRef graph' (σ id) = validRef graph id := by
  unfold validRef
  rw [h.types, Option.any_map]
  congr 1
  funext node
  simp

theorem clean_verifyNodeShape_renumber (h : Renumbers σ graph graph') (node : TypeNode) :
    (verifyNodeShape graph' (node.rename σ)).Clean ↔ (verifyNodeShape graph node).Clean := by
  obtain ⟨id, span, kind⟩ := node
  have hnominal (module declaration : ℕ) :
      (verifyNominalRef graph' span module declaration).Clean
        ↔ (verifyNominalRef graph span module declaration).Clean := by
    unfold verifyNominalRef
    rw [h.modules]
  have hcontainer (element : ℕ) : (verifyContainer graph' span (σ element)).Clean
      ↔ (verifyContainer graph span element).Clean := by
    unfold verifyContainer
    rw [validRef_renumber h]
  cases kind with
  | struct module declaration fields =>
    simp [verifyNodeShape, TypeNode.rename, TypeKind.rename, hnominal, zipIdx_map,
      validRef_renumber h]
  | enum module declaration variants =>
    simp [verifyNodeShape, TypeNode.rename, TypeKind.rename, hnominal, zipIdx_map,
      validRef_renumber h, Option.any_map]
  | fixedArray element length =>
    simp [verifyNodeShape, TypeNode.rename, TypeKind.rename, validRef_renumber h]
  | _ => simp [verifyNodeShape, TypeNode.rename, TypeKind.rename, hcontainer]

theorem verifyNodeSource_renumber (h : Renumbers σ graph graph') (node : TypeNode)
    (sources : SourceMap) :
    verifyNodeSource graph' (node.rename σ) sources = verifyNodeSource graph node sources := by
  unfold verifyNodeSource
  rw [TypeNode.rename_kind, TypeNode.rename_span, TypeKind.nominalIdentity_rename, h.modules]

theorem declared_rename (f : ℕ → ℕ) (kind : TypeKind) :
    declared (kind.rename f) = declared kind := by
  cases kind <;> rfl

theorem mem_seeds_renumber (h : Renumbers σ graph graph') {v : ℕ} (hv : v ∈ seeds graph) :
    σ v ∈ seeds graph' := by
  unfold seeds at hv ⊢
  rw [mem_append] at hv ⊢
  rw [h.programRoots]
  refine hv.imp (fun hv => ?_) mem_map_of_mem
  obtain ⟨node, hnode, rfl⟩ := mem_map.mp hv
  obtain ⟨hnode, hdeclared⟩ := mem_filter.mp hnode
  refine mem_map.mpr ⟨node.rename σ, mem_filter.mpr ⟨?_, ?_⟩, rfl⟩
  · exact h.perm.mem_iff.mpr (mem_map_of_mem hnode)
  · rwa [TypeNode.rename_kind, declared_rename]

theorem childrenAt_renumber (h : Renumbers σ graph graph') (v : ℕ) :
    childrenAt graph' (σ v) = (childrenAt graph v).map σ := by
  unfold childrenAt
  rw [h.types]
  cases graph.types[v]? <;> simp

/-- The preflight condition does not depend on the numbering. -/
theorem Admitted.renumber {sources : SourceMap} (hg : Admitted graph sources)
    (h : Renumbers σ graph graph') : Admitted graph' sources := by
  have hmem {node : TypeNode} (hnode : node ∈ graph'.types) :
      ∃ original ∈ graph.types, original.rename σ = node :=
    mem_map.mp (h.perm.mem_iff.mp hnode)
  have hsum (f : TypeNode → ℕ) (hf : ∀ node : TypeNode, f (node.rename σ) = f node) :
      (graph'.types.map f).sum = (graph.types.map f).sum := by
    rw [(h.perm.map f).sum_eq, map_map]
    exact congrArg List.sum (map_congr_left fun node _ => hf node)
  have hcount (p : TypeNode → Bool) (hp : ∀ node : TypeNode, p (node.rename σ) = p node) :
      graph'.types.countP p = graph.types.countP p := by
    rw [h.perm.countP_eq, countP_map]
    exact countP_congr fun node _ => by rw [Function.comp_apply, hp]
  have hkind (node : TypeNode) : (node.rename σ).kind.memberAndEdgeCount
      = node.kind.memberAndEdgeCount := node.kind.memberAndEdgeCount_rename σ
  have hnominals : (graph'.types.filterMap fun node => node.kind.nominalIdentity).Perm
      (graph.types.filterMap fun node => node.kind.nominalIdentity) := by
    have hperm := h.perm.filterMap fun node => node.kind.nominalIdentity
    rw [filterMap_map] at hperm
    refine hperm.trans (.of_eq (filterMap_congr fun node _ => ?_))
    exact node.kind.nominalIdentity_rename σ
  refine ⟨h.length_eq ▸ hg.types_le, h.modules ▸ hg.modules_length, h.modules ▸ hg.modules, ?_, ?_,
    ?_, ?_, ?_, ?_, ?_, hnominals.nodup_iff.mpr hg.nominal_nodup, ?_, ?_, ?_⟩
  · intro i node hi
    have hsymm := h.types (σ.symm i)
    rw [Equiv.apply_symm_apply, hi] at hsymm
    obtain ⟨original, horiginal, rfl⟩ := Option.map_eq_some_iff.mp hsymm.symm
    rw [TypeNode.rename_id, hg.id_eq _ _ horiginal, Equiv.apply_symm_apply]
  · intro node hnode
    obtain ⟨original, horiginal, rfl⟩ := hmem hnode
    rw [hkind]
    exact hg.local_le original horiginal
  · rw [hsum _ fun node => by rw [hkind]]
    exact hg.members_le
  · rw [hsum _ fun node => by rw [hkind]]
    exact hg.edges_le
  · intro node hnode
    obtain ⟨original, horiginal, rfl⟩ := hmem hnode
    exact (clean_verifyNodeShape_renumber h original).mpr (hg.shape original horiginal)
  · intro node hnode
    obtain ⟨original, horiginal, rfl⟩ := hmem hnode
    rw [verifyNodeSource_renumber h]
    exact hg.source original horiginal
  · rw [← hg.primitives]
    unfold primitiveCounts
    congr 1
    · exact hcount _ fun node => by cases node with | mk id span kind => cases kind <;> rfl
    congr 1
    · exact hcount _ fun node => by cases node with | mk id span kind => cases kind <;> rfl
    congr 1
    exact hcount _ fun node => by cases node with | mk id span kind => cases kind <;> rfl
  · rw [h.modules, hg.declarations, hnominals.length_eq]
  · intro root hroot
    rw [h.programRoots] at hroot
    obtain ⟨original, horiginal, rfl⟩ := mem_map.mp hroot
    rw [validRef_renumber h]
    exact hg.roots original horiginal
  · intro v hv
    have hv' : σ.symm v < graph.types.length := by
      rw [← h.lt_iff, Equiv.apply_symm_apply]
      exact h.length_eq ▸ hv
    have hreached : Reached (childrenAt graph') graph'.types.length (· ∈ seeds graph')
        (σ (σ.symm v)) := by
      refine (hg.reached _ hv').map (fun u hu => mem_seeds_renumber h hu) (fun u w _ hw => ?_)
        fun u hu => ?_
      · rw [childrenAt_renumber h]
        exact mem_map_of_mem hw
      · rw [h.length_eq]
        exact (h.lt_iff u).mpr hu
    rwa [Equiv.apply_symm_apply] at hreached

end Renumbering

end Zryna.Layout.Aggregate
