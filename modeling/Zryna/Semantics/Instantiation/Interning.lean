import Zryna.Semantics.Instantiation.Types

/-!
# Interning

What the operations of the builder do, said once for each of them, and the invariant that they
keep: an interned type is a closed type within the limits over interned types, an interned function
is one over interned types, and the orders list each of them once, by increasing key.
-/

namespace Zryna.Semantics.Instantiation

open Zryna.Ir.Generic Checked SortedSlice List Option

/-! ### Shapes and constructors -/

/-- The constructor of closed types of a shape over a number of arguments. -/
def BodyTypes.constructor (bodies : BodyTypes) (shape : TypeShape) (count : ℕ) :
    Option TypeConstructor :=
  match shape, count with
  | .bool, 0 => some .bool
  | .i32, 0 => some .i32
  | .string, 0 => some .string
  | .option, 1 => some .option
  | .result, 2 => some .result
  | .vec, 1 => some .vec
  | .shared, 1 => some .shared
  | .weak, 1 => some .weak
  | .fixedArray length, 1 => some (.fixedArray length.value)
  | .nominal owner, count =>
    match bodies.data? owner, count with
    | some ⟨_, _, .struct _⟩, 0 => some (.struct owner.lanes)
    | some ⟨_, _, .struct _⟩, 1 => some (.genericStruct owner.lanes .one)
    | some ⟨_, _, .struct _⟩, 2 => some (.genericStruct owner.lanes .two)
    | some ⟨_, _, .enum _⟩, 0 => some (.enum owner.lanes)
    | some ⟨_, _, .enum _⟩, 1 => some (.genericEnum owner.lanes .one)
    | some ⟨_, _, .enum _⟩, 2 => some (.genericEnum owner.lanes .two)
    | _, _ => none
  | _, _ => none

/-- A shape that is not that of a stored type. -/
def TypeShape.Open : TypeShape → Prop
  | .unit | .parameter _ | .borrow | .borrowMut | .function _ => True
  | _ => False

theorem BodyTypes.kind_of_data? {bodies : BodyTypes} {owner : DeclarationIdentity}
    {data : DataDeclaration} (h : bodies.data? owner = some data) :
    data.kind.declarationKind = owner.kind := by
  simp only [BodyTypes.data?, bind_eq_bind, bind_eq_some_iff] at h
  obtain ⟨_, -, _, -, h⟩ := h
  split at h
  · next hkind => exact Option.some.inj h ▸ hkind
  · cases h

theorem DataKind.declarationKind_ne_function (kind : DataKind) :
    kind.declarationKind ≠ .function := by
  cases kind <;> exact DeclarationKind.noConfusion

namespace Builder

variable {bodies : BodyTypes} {shape : TypeShape} {count : ℕ} {c : TypeConstructor}

theorem lead_nominal {owner : DeclarationIdentity} {data : DataDeclaration}
    (hdata : bodies.data? owner = some data) :
    lead bodies (.nominal owner) count = .ok
      (if count = 0 then if data.kind.declarationKind = .enum then 0x11 else 0x10
        else if data.kind.declarationKind = .enum then 0x13 else 0x12,
        [owner.module, owner.sourceIndex] ++ if count = 0 then [] else [UInt32.ofNat count]) := by
  have hkind : owner.kind ≠ .function := by
    rw [← BodyTypes.kind_of_data? hdata]
    exact data.kind.declarationKind_ne_function
  simp only [lead, if_neg hkind, hdata]

/-- The key of a shape starts with what its constructor says. -/
theorem lead_eq_ok (h : bodies.constructor shape count = some c) :
    lead bodies shape count = .ok (c.tag, c.lanes) ∧ c.count.toNat = count
      ∧ (Constructor.type c).arrayLength.toNat ≤ Keys.maxArrayLength := by
  unfold BodyTypes.constructor at h
  split at h
  all_goals first
    | (obtain rfl := Option.some.inj h
       exact ⟨rfl, rfl, Nat.zero_le _⟩)
    | skip
  · next length =>
    cases h
    exact ⟨rfl, rfl, length.bounded⟩
  · split at h
    all_goals first
      | (next hdata =>
          cases h
          rw [lead_nominal hdata]
          exact ⟨rfl, rfl, Nat.zero_le _⟩)
      | exact nomatch h
  · cases h

/-- Every shape of a stored type has a constructor over the arguments it takes. -/
theorem exists_constructor (hopen : ¬ shape.Open) (harity : bodies.arity shape = some count)
    (hcount : count ≤ 2) : ∃ c, bodies.constructor shape count = some c := by
  cases shape with
  | unit | parameter _ | borrow | borrowMut | function _ => exact absurd trivial hopen
  | bool | i32 | string | option | result | vec | shared | weak | fixedArray _ =>
    cases harity
    exact ⟨_, rfl⟩
  | nominal owner =>
    obtain ⟨⟨name, parameters, kind⟩, hdata, rfl⟩ := map_eq_some_iff.mp harity
    have hcases : parameters = 0 ∨ parameters = 1 ∨ parameters = 2 := by
      have : parameters ≤ 2 := hcount
      omega
    obtain rfl | rfl | rfl := hcases <;> cases kind <;>
      exact ⟨_, by simp only [BodyTypes.constructor, hdata]; rfl⟩

end Builder

/-- A shape has at most two arguments. -/
theorem CheckedProgram.arity_le {program : CheckedProgram} {shape : TypeShape} {count : ℕ}
    (h : program.arity shape = some count) : count ≤ 2 := by
  cases shape with
  | nominal owner =>
    obtain ⟨data, hdata, rfl⟩ := map_eq_some_iff.mp h
    refine program.typeParameters_le owner _ ?_
    have hkind := BodyTypes.kind_of_data? hdata
    rw [BodyTypes.typeParameters?]
    cases howner : owner.kind with
    | function => exact absurd (hkind.trans howner) data.kind.declarationKind_ne_function
    | struct | enum => rw [hdata]; rfl
  | bool | i32 | string | unit | parameter _ | function _ => exact Option.some.inj h ▸ Nat.zero_le 2
  | option | vec | shared | weak | borrow | borrowMut | fixedArray _ =>
    exact Option.some.inj h ▸ Nat.le_succ 1
  | result => exact Option.some.inj h ▸ le_refl 2

theorem length_encodeKey (tag : UInt8) (lanes : List UInt32) (children : List (List UInt8)) :
    (encodeKey tag lanes children).length = encodedSize lanes.length (children.map List.length) := by
  have hfold : ∀ (sizes : List ℕ) (start : ℕ),
      sizes.foldl (fun size child => size + 4 + child) start
        = start + 4 * sizes.length + sizes.sum := by
    intro sizes
    induction sizes with
    | nil => intro start; rfl
    | cons size sizes ih =>
      intro start
      rw [foldl_cons, ih, length_cons, sum_cons]
      omega
  have hlanes : ∀ lanes : List UInt32, (lanes.flatMap laneBytes).length = 4 * lanes.length := by
    intro lanes
    induction lanes with
    | nil => rfl
    | cons lane lanes ih =>
      rw [flatMap_cons, length_append, ih, length_laneBytes, length_cons]
      omega
  rw [encodeKey, length_cons, length_append, length_flatMap_framed, hlanes, encodedSize,
    hfold, length_map]
  omega

variable {tag : UInt8}

/-- A key that is not empty is the whole key, and is not too long. -/
theorem encode_eq {lanes : List UInt32} {children : List (List UInt8)}
    (h : (encode tag lanes children).1.isEmpty = false) :
    (encode tag lanes children).1 = encodeKey tag lanes children
      ∧ (encodeKey tag lanes children).length ≤ maxKeyBytes := by
  unfold encode at h ⊢
  dsimp only at h ⊢
  rw [length_encodeKey]
  split
  · next hlong =>
    rw [if_pos hlong] at h
    cases h
  · next hshort => exact ⟨rfl, not_lt.mp hshort⟩

/-- The constructor of closed functions over a number of arguments. -/
def functionConstructor (owner : DeclarationIdentity) : ℕ → Option Constructor
  | 0 => some (.sourceRoot owner.lanes)
  | 1 => some (.functionInstance owner.lanes .one)
  | 2 => some (.functionInstance owner.lanes .two)
  | _ => none

/-! ### The invariant -/

/-- The interned type of an index has the key of a closed type. -/
def Denotes (types : List Node) (id : ℕ) (t : ClosedType) : Prop :=
  ∃ node, types[id]? = some node ∧ node.key = t.key

/-- An interned type is a closed type within the limits, over types that were interned before. -/
structure NodeOk (bodies : BodyTypes) (earlier : List Node) (node : Node) (t : ClosedType) :
    Prop where
  key : node.key = t.key
  key_le : t.key.length ≤ maxKeyBytes
  depth : node.depth = t.depth
  depth_le : t.depth ≤ maxDepth
  arrays : t.ArraysWithin Keys.maxArrayLength
  arity : bodies.arity node.shape = some node.arguments.length
  constructor : bodies.constructor node.shape node.arguments.length = some t.constructor
  arguments : List.Forall₂ (Denotes earlier) node.arguments t.arguments

/-- An interned function is a closed function over interned types. -/
structure FunctionOk (bodies : BodyTypes) (types : List Node) (function : Function)
    (term : ClosedTerm) : Prop where
  key : function.key = term.key
  key_le : term.key.length ≤ maxKeyBytes
  kind : function.owner.kind = .function
  count : bodies.typeParameters? function.owner = some function.arguments.length
  generic : function.generic = !function.arguments.isEmpty
  constructor : functionConstructor function.owner function.arguments.length
    = some term.constructor
  arguments : List.Forall₂ (Denotes types) function.arguments term.argumentList

structure Inventory (bodies : BodyTypes) (builder : Builder) : Prop where
  types : ∀ id node, builder.types[id]? = some node →
    ∃ t, NodeOk bodies (builder.types.take id) node t
  functions : ∀ function ∈ builder.functions, ∃ term, FunctionOk bodies builder.types function term
  typeOrder_sorted : Sorted builder.typeKey builder.typeOrder
  mem_typeOrder : ∀ id, id ∈ builder.typeOrder ↔ id < builder.types.length
  functionOrder_sorted : Sorted builder.functionKey builder.functionOrder
  mem_functionOrder : ∀ id, id ∈ builder.functionOrder ↔ id < builder.functions.length
  edges_sorted : Sorted toLex builder.edges

/-! ### Steps -/

namespace Builder

variable {bodies : BodyTypes} {builder builder' : Builder} {node : Node} {id : ℕ}
  {span : Option UntrustedSpan}

theorem typeKey_of_getElem? (h : builder.types[id]? = some node) : builder.typeKey id = node.key := by
  rw [typeKey, h]
  rfl

/-- Interning finds the type, or adds it. -/
theorem intern_cases (hinv : Inventory bodies builder)
    (h : builder.intern bodies node span = .ok (builder', id)) :
    (builder' = builder ∧ id < builder.types.length ∧ builder.typeKey id = node.key)
      ∨ ∃ position genericData, search builder.typeKey node.key builder.typeOrder
          = .error position
        ∧ id = builder.types.length
        ∧ builder' = { builder with
          types := builder.types ++ [node]
          generatedReverse := builder.generatedReverse ++ [[]]
          typeOrder := insertAt position builder.types.length builder.typeOrder
          genericData := genericData } := by
  unfold intern at h
  split at h
  · next index hsearch =>
    obtain ⟨found, hfound, hkey⟩ := exists_of_search hsearch
    rw [hfound, Except.ok.injEq, Prod.mk.injEq] at h
    obtain ⟨rfl, rfl⟩ := h
    exact .inl ⟨rfl, (hinv.mem_typeOrder found).mp (mem_of_getElem? hfound), hkey⟩
  · next position hsearch =>
    simp only [ite_error_eq_ok, Except.ok.injEq, Prod.mk.injEq] at h
    obtain ⟨-, -, rfl, rfl⟩ := h
    exact .inr ⟨position, _, hsearch, rfl, rfl⟩

theorem typeKey_append {types types' : List Node} (htypes : builder.types = types)
    (htypes' : builder'.types = types ++ types') {i : ℕ} (hi : i < types.length) :
    builder'.typeKey i = builder.typeKey i := by
  rw [typeKey, typeKey, htypes, htypes', getElem?_append_left hi]

end Builder

variable {bodies : BodyTypes} {builder builder' : Builder}
  {id : ℕ} {types' : List Node} {ids : List ℕ} {term : ClosedTerm}
  {span : Option UntrustedSpan}

theorem Denotes.mono {types : List Node} {t : ClosedType} (h : Denotes types id t)
    (hkeys : ∀ node, types[id]? = some node → ∃ node', types'[id]? = some node'
      ∧ node'.key = node.key) : Denotes types' id t := by
  obtain ⟨node, hnode, hkey⟩ := h
  obtain ⟨node', hnode', hkey'⟩ := hkeys node hnode
  exact ⟨node', hnode', hkey'.trans hkey⟩

theorem Denotes.append {types : List Node} {t : ClosedType}
    (h : Denotes types id t) : Denotes (types ++ types') id t :=
  h.mono fun node hnode => ⟨node, by
    rw [getElem?_append_left (List.getElem?_eq_some_iff.mp hnode).1, hnode], rfl⟩

theorem Denotes.of_take {types : List Node} {i : ℕ} {t : ClosedType}
    (h : Denotes (types.take i) id t) : Denotes types id t := by
  rw [← take_append_drop i types]
  exact h.append

theorem Denotes.lt {types : List Node} {t : ClosedType} (h : Denotes types id t) :
    id < types.length := by
  obtain ⟨node, hnode, -⟩ := h
  exact (List.getElem?_eq_some_iff.mp hnode).1

theorem exists_denotes {types : List Node} {ts : List ClosedType} {t : ClosedType}
    (h : List.Forall₂ (Denotes types) ids ts) (ht : t ∈ ts) : ∃ id ∈ ids, Denotes types id t := by
  induction h with
  | nil => cases ht
  | cons hid _ ih =>
    obtain rfl | ht := mem_cons.mp ht
    · exact ⟨_, mem_cons_self, hid⟩
    · obtain ⟨id, hmem, hdenotes⟩ := ih ht
      exact ⟨id, mem_cons_of_mem _ hmem, hdenotes⟩

theorem exists_denoted {types : List Node} {ts : List ClosedType}
    (h : List.Forall₂ (Denotes types) ids ts) (hid : id ∈ ids) : ∃ t ∈ ts, Denotes types id t := by
  induction h with
  | nil => cases hid
  | cons hfirst _ ih =>
    obtain rfl | hid := mem_cons.mp hid
    · exact ⟨_, mem_cons_self, hfirst⟩
    · obtain ⟨t, hmem, hdenotes⟩ := ih hid
      exact ⟨t, mem_cons_of_mem _ hmem, hdenotes⟩

theorem FunctionOk.mono {types : List Node} {function : Function}
    (h : FunctionOk bodies types function term)
    (hmono : ∀ id t, Denotes types id t → Denotes types' id t) :
    FunctionOk bodies types' function term :=
  { h with arguments := h.arguments.imp hmono }

namespace Inventory

/-- An interned type that is new keeps the invariant. -/
theorem addType (hinv : Inventory bodies builder) {node : Node} {t : ClosedType} {position : ℕ}
    {reverse : List (List ℕ)} {genericData : ℕ} (hnode : NodeOk bodies builder.types node t)
    (hsearch : search builder.typeKey node.key builder.typeOrder = .error position) :
    Inventory bodies { builder with
      types := builder.types ++ [node]
      generatedReverse := reverse
      typeOrder := insertAt position builder.types.length builder.typeOrder
      genericData := genericData } := by
  set added : Builder := { builder with
      types := builder.types ++ [node]
      generatedReverse := reverse
      typeOrder := insertAt position builder.types.length builder.typeOrder
      genericData := genericData } with hadded
  have hold : ∀ i ∈ builder.typeOrder, builder.typeKey i = added.typeKey i := fun i hi =>
    (Builder.typeKey_append rfl rfl ((hinv.mem_typeOrder i).mp hi)).symm
  have hnew : added.typeKey builder.types.length = node.key :=
    Builder.typeKey_of_getElem? (by simp [hadded])
  refine
    { types := fun id other hother => ?_
      functions := fun function hfunction => ?_
      typeOrder_sorted := ?_
      mem_typeOrder := fun id => ?_
      functionOrder_sorted := hinv.functionOrder_sorted
      mem_functionOrder := hinv.mem_functionOrder
      edges_sorted := hinv.edges_sorted }
  · by_cases hlt : id < builder.types.length
    · have hget : builder.types[id]? = some other := by
        rwa [hadded, getElem?_append_left hlt] at hother
      obtain ⟨u, hu⟩ := hinv.types id other hget
      refine ⟨u, ?_⟩
      rw [hadded, take_append_of_le_length hlt.le]
      exact hu
    · obtain ⟨hid, hget⟩ := List.getElem?_eq_some_iff.mp hother
      obtain rfl : id = builder.types.length := by
        rw [hadded, length_append, length_singleton] at hid
        omega
      obtain rfl : node = other := by simpa [hadded] using hget
      refine ⟨t, ?_⟩
      rw [hadded, take_left]
      exact hnode
  · obtain ⟨term, hterm⟩ := hinv.functions function hfunction
    exact ⟨term, hterm.mono fun _ _ h => h.append⟩
  · refine sorted_insertAt (hinv.typeOrder_sorted.congr hold) ?_
    rw [hnew, ← hsearch]
    exact (search_congr hold).symm
  · rw [hadded, mem_insertAt, hinv.mem_typeOrder, length_append,
      length_singleton]
    omega

end Inventory

/-! ### Interning a shape -/

/-- The uses of arguments and the errors aside, the builders are the same. -/
def SameInventory (builder builder' : Builder) : Prop :=
  ∃ uses errors, builder' = { builder with argumentUses := uses, errors := errors }

theorem sameInventory_argumentUse (id : ℕ) (span : Option UntrustedSpan) :
    SameInventory builder (builder.argumentUse id span) := by
  have hreport : SameInventory builder (builder.reportArgument id span) := by
    unfold Builder.reportArgument
    split
    · exact ⟨builder.argumentUses, _, rfl⟩
    · exact ⟨builder.argumentUses, builder.errors, rfl⟩
  obtain ⟨uses, errors, hreport⟩ := hreport
  unfold Builder.argumentUse
  rw [hreport]
  dsimp only
  split
  · exact ⟨uses, errors, rfl⟩
  · exact ⟨_, errors, rfl⟩

theorem sameInventory_noteArguments (arguments : List ℕ) (spans : List (Option UntrustedSpan))
    (span : Option UntrustedSpan) :
    SameInventory builder (builder.noteArguments arguments spans span) := by
  unfold Builder.noteArguments
  induction arguments.zip spans generalizing builder with
  | nil => exact ⟨builder.argumentUses, builder.errors, rfl⟩
  | cons use uses ih =>
    obtain ⟨_, _, hnext⟩ := @sameInventory_argumentUse builder use.1 (use.2.or span)
    obtain ⟨_, _, hrest⟩ := @ih (builder.argumentUse use.1 (use.2.or span))
    rw [foldl_cons, hrest, hnext]
    exact ⟨_, _, rfl⟩

theorem Inventory.setEdges (hinv : Inventory bodies builder)
    {edges : List (List UInt8 × List UInt8)} (h : Sorted toLex edges) :
    Inventory bodies { builder with edges } :=
  ⟨hinv.types, hinv.functions, hinv.typeOrder_sorted, hinv.mem_typeOrder,
    hinv.functionOrder_sorted, hinv.mem_functionOrder, h⟩

theorem Inventory.same (hinv : Inventory bodies builder) (h : SameInventory builder builder') :
    Inventory bodies builder' := by
  obtain ⟨uses, errors, rfl⟩ := h
  exact ⟨hinv.types, hinv.functions, hinv.typeOrder_sorted, hinv.mem_typeOrder,
    hinv.functionOrder_sorted, hinv.mem_functionOrder, hinv.edges_sorted⟩

theorem typeKey_of_denotes {t : ClosedType} (h : Denotes builder.types id t) :
    builder.typeKey id = t.key := by
  obtain ⟨node, hnode, hkey⟩ := h
  rw [Builder.typeKey_of_getElem? hnode, hkey]

theorem map_typeKey {ts : List ClosedType} (h : List.Forall₂ (Denotes builder.types) ids ts) :
    ids.map builder.typeKey = ts.map ClosedType.key := by
  induction h with
  | nil => rfl
  | cons hid _ ih => rw [map_cons, map_cons, typeKey_of_denotes hid, ih]

/-- An interned type is within the limits, with its depth. -/
theorem Inventory.denoted (hinv : Inventory bodies builder) {t : ClosedType}
    (h : Denotes builder.types id t) : ∃ node, builder.types[id]? = some node
      ∧ NodeOk bodies (builder.types.take id) node t := by
  obtain ⟨node, hnode, hkey⟩ := h
  obtain ⟨u, hu⟩ := hinv.types id node hnode
  have htu : u = t := ClosedType.key_injective (lt_of_le_of_lt hu.key_le (by decide))
    (hu.key.symm.trans hkey)
  exact ⟨node, hnode, htu ▸ hu⟩

theorem map_depthOf (hinv : Inventory bodies builder) {ts : List ClosedType}
    (h : List.Forall₂ (Denotes builder.types) ids ts) :
    ids.map builder.depthOf = ts.map ClosedType.depth := by
  induction h with
  | nil => rfl
  | cons hid _ ih =>
    obtain ⟨node, hnode, hok⟩ := hinv.denoted hid
    rw [map_cons, map_cons, ih, Builder.depthOf, hnode]
    exact congrArg (· :: _) hok.depth

/-- The depth of a type over its arguments, as it is computed. -/
theorem depth_ofArguments (c : TypeConstructor) (ts : List ClosedType)
    (hcount : ts.length = c.count.toNat) :
    (((ts.map ClosedType.depth).max?).elim 0 (· + 1))
      = (ClosedType.ofArguments c ts hcount).depth := by
  rw [ClosedType.depth_eq, ClosedType.constructor_ofArguments, ClosedType.arguments_ofArguments]
  have happlication : c.application = !ts.isEmpty := by
    cases ts with
    | nil =>
      have hzero : c.count = 0 := UInt32.toNat_inj.mp hcount.symm
      simp [TypeConstructor.application, hzero]
    | cons t ts =>
      have hne : c.count ≠ 0 := fun h => by simp [h] at hcount
      simp [TypeConstructor.application, hne]
  rw [happlication]
  cases ts with
  | nil => rfl
  | cons t ts =>
    rw [map_cons, max?_cons']
    simp only [isEmpty_cons, Bool.not_false, if_true, elim_some, foldr_cons]
    rw [foldl_eq_apply_foldr, Nat.add_comm]

/-- What interning a shape leaves alone, and the node it may add. -/
structure Interned (builder builder' : Builder) (shape : TypeShape) (arguments : List ℕ)
    (t : ClosedType) : Prop where
  functions : builder'.functions = builder.functions
  functionOrder : builder'.functionOrder = builder.functionOrder
  edges : builder'.edges = builder.edges
  bounds : builder'.bounds = builder.bounds
  types : builder'.types = builder.types ∨ ∃ node, builder'.types = builder.types ++ [node]
    ∧ node.key = t.key ∧ node.shape = shape ∧ node.arguments = arguments
    ∧ node.processed = false ∧ node.members = []
    ∧ (node.value = false → (∃ owner, shape = .nominal owner ∧ builder.bounds.value owner = .ok false)
      ∨ ∃ argument ∈ arguments, builder.isValue argument = false)

variable {arguments : List ℕ}

/-- Interning a shape over interned arguments gives the closed type of its constructor. -/
theorem internShape_spec (hinv : Inventory bodies builder) {shape : TypeShape}
    {ts : List ClosedType} {c : TypeConstructor} {spans : List (Option UntrustedSpan)}
    (hargs : List.Forall₂ (Denotes builder.types) arguments ts)
    (harity : bodies.arity shape = some arguments.length)
    (hc : bodies.constructor shape arguments.length = some c)
    (h : builder.internShape bodies shape arguments spans span = .ok (builder', id)) :
    ∃ hcount : ts.length = c.count.toNat,
      Inventory bodies builder' ∧ Denotes builder'.types id (.ofArguments c ts hcount)
        ∧ Interned builder builder' shape arguments (.ofArguments c ts hcount) := by
  obtain ⟨hlead, hcount, harray⟩ := Builder.lead_eq_ok hc
  have hcount' : ts.length = c.count.toNat := by rw [hcount, hargs.length_eq]
  refine ⟨hcount', ?_⟩
  set t := ClosedType.ofArguments c ts hcount' with ht
  have hchildren := map_typeKey hargs
  have hdepths := map_depthOf hinv hargs
  rw [hargs.length_eq] at hlead
  unfold Builder.internShape at h
  simp only [length_map, hdepths, depth_ofArguments c ts hcount', hlead, hchildren,
    ite_error_eq_ok, bind_eq_ok, Except.ok.injEq, exists_eq_left', not_lt,
    Bool.not_eq_true] at h
  obtain ⟨hdepth, hkey, bound, hbound, h⟩ := h
  obtain ⟨hencode, hlength⟩ := encode_eq hkey
  rw [hencode] at h
  set noted := if Builder.generic bodies shape = true then builder.noteArguments arguments spans span
    else builder with hnoted
  have hsame : SameInventory builder noted := by
    rw [hnoted]
    split
    · exact sameInventory_noteArguments arguments spans span
    · exact ⟨builder.argumentUses, builder.errors, rfl⟩
  have hinv' := hinv.same hsame
  obtain ⟨uses, errors, heq⟩ := hsame
  have htypes : noted.types = builder.types := by rw [heq]
  have hkeyEq : encodeKey c.tag c.lanes (ts.map ClosedType.key) = t.key := by
    rw [ht, ClosedType.key_eq, ClosedType.constructor_ofArguments,
      ClosedType.arguments_ofArguments]
  rw [hkeyEq] at h hlength
  have hnode : ∀ value, NodeOk bodies noted.types
      ⟨t.key, shape, arguments, t.depth, false, [], value⟩ t := fun value =>
    { key := rfl
      key_le := hlength
      depth := rfl
      depth_le := hdepth
      arrays := by
        rw [ClosedType.arraysWithin_iff, ht, ClosedType.constructor_ofArguments,
          ClosedType.arguments_ofArguments]
        refine ⟨harray, fun argument hargument => ?_⟩
        obtain ⟨i, -, hi⟩ := exists_denotes hargs hargument
        obtain ⟨_, -, hok⟩ := hinv.denoted hi
        exact hok.arrays
      arity := harity
      constructor := by rw [ht, ClosedType.constructor_ofArguments, hc]
      arguments := by rw [htypes, ht, ClosedType.arguments_ofArguments]; exact hargs }
  obtain ⟨rfl, hid, hfound⟩ | ⟨position, genericData, hsearch, rfl, rfl⟩ :=
    Builder.intern_cases hinv' h
  · refine ⟨hinv', ⟨_, getElem?_eq_getElem hid, ?_⟩, ?_⟩
    · rwa [Builder.typeKey_of_getElem? (getElem?_eq_getElem hid)] at hfound
    · rw [heq]
      exact ⟨rfl, rfl, rfl, rfl, .inl rfl⟩
  · refine ⟨hinv'.addType (hnode _) hsearch, ⟨_, getElem?_concat_length, rfl⟩, ?_⟩
    refine ⟨by rw [heq], by rw [heq], by rw [heq], by rw [heq], .inr ⟨_, by rw [htypes], rfl, rfl,
      rfl, rfl, rfl, ?_⟩⟩
    intro hvalue
    rw [Bool.and_eq_false_iff] at hvalue
    obtain rfl | hvalue := hvalue
    · refine .inl ?_
      cases shape with
      | nominal owner => exact ⟨owner, rfl, by rw [← hbound, heq]; rfl⟩
      | _ => cases hbound
    · refine .inr ?_
      obtain ⟨argument, hargument, hfalse⟩ := all_eq_false.mp hvalue
      refine ⟨argument, hargument, ?_⟩
      rw [Builder.isValue, ← htypes]
      exact Bool.not_eq_true _ ▸ hfalse

/-! ### Functions -/

theorem functionKey_of_getElem? {function : Function}
    (h : builder.functions[id]? = some function) : builder.functionKey id = function.key := by
  rw [Builder.functionKey, h]
  rfl

/-- A function that is new keeps the invariant. -/
theorem Inventory.addFunction (hinv : Inventory bodies builder) {function : Function}
    {position genericFunctions : ℕ} (hfunction : FunctionOk bodies builder.types function term)
    (hsearch : search builder.functionKey function.key builder.functionOrder
      = .error position) :
    Inventory bodies { builder with
      functions := builder.functions ++ [function]
      functionOrder := insertAt position builder.functions.length builder.functionOrder
      genericFunctions := genericFunctions } := by
  set added : Builder := { builder with
      functions := builder.functions ++ [function]
      functionOrder := insertAt position builder.functions.length builder.functionOrder
      genericFunctions := genericFunctions } with hadded
  have hold : ∀ i ∈ builder.functionOrder, builder.functionKey i = added.functionKey i := by
    intro i hi
    rw [Builder.functionKey, Builder.functionKey, hadded,
      getElem?_append_left ((hinv.mem_functionOrder i).mp hi)]
  have hnew : added.functionKey builder.functions.length = function.key :=
    functionKey_of_getElem? getElem?_concat_length
  refine
    { types := hinv.types
      functions := fun other hother => ?_
      typeOrder_sorted := hinv.typeOrder_sorted
      mem_typeOrder := hinv.mem_typeOrder
      functionOrder_sorted := ?_
      mem_functionOrder := fun id => ?_
      edges_sorted := hinv.edges_sorted }
  · obtain hother | hother := mem_append.mp hother
    · exact hinv.functions other hother
    · rw [mem_singleton.mp hother]
      exact ⟨term, hfunction⟩
  · refine sorted_insertAt (hinv.functionOrder_sorted.congr hold) ?_
    rw [hnew, ← hsearch]
    exact (search_congr hold).symm
  · rw [hadded, mem_insertAt, hinv.mem_functionOrder, length_append,
      length_singleton]
    omega

/-- The constructor of functions over as many arguments as are interned. -/
theorem functionConstructor_spec {owner : DeclarationIdentity} {count : ℕ} (hcount : count ≤ 2) :
    ∃ c, functionConstructor owner count = some c ∧ c.count.toNat = count
      ∧ c.tag = (if count = 0 then 0x41 else 0x40)
      ∧ c.lanes = [owner.module, owner.sourceIndex]
        ++ (if count = 0 then [] else [UInt32.ofNat count])
      ∧ c.arrayLength.toNat ≤ Keys.maxArrayLength := by
  have hcases : count = 0 ∨ count = 1 ∨ count = 2 := by omega
  obtain rfl | rfl | rfl := hcases
  · exact ⟨_, rfl, rfl, rfl, rfl, Nat.zero_le _⟩
  · exact ⟨_, rfl, rfl, rfl, rfl, Nat.zero_le _⟩
  · exact ⟨_, rfl, rfl, rfl, rfl, Nat.zero_le _⟩

/-- Interning a function finds its key, or adds it. -/
theorem function_cases (hinv : Inventory bodies builder) {owner : DeclarationIdentity}
    {key : List UInt8} (hkey : key = encodeKey (if arguments.length = 0 then 0x41 else 0x40)
      ([owner.module, owner.sourceIndex]
        ++ if arguments.length = 0 then [] else [UInt32.ofNat arguments.length])
      (arguments.map builder.typeKey))
    (h : builder.function owner arguments span = .ok (builder', id)) :
    key.length ≤ maxKeyBytes
      ∧ ((builder' = builder ∧ id < builder.functions.length ∧ builder.functionKey id = key)
        ∨ ∃ position genericFunctions, search builder.functionKey key
            builder.functionOrder = .error position
          ∧ id = builder.functions.length
          ∧ builder' = { builder with
            functions := builder.functions
              ++ [⟨key, owner, arguments, !arguments.isEmpty, false⟩]
            functionOrder :=
              insertAt position builder.functions.length builder.functionOrder
            genericFunctions := genericFunctions }) := by
  have hempty : (arguments.map builder.typeKey).isEmpty = arguments.isEmpty := isEmpty_map ..
  have hlead : (if (!arguments.isEmpty) = true then (0x40 : UInt8) else 0x41)
        = (if arguments.length = 0 then 0x41 else 0x40)
      ∧ (if (!arguments.isEmpty) = true then [UInt32.ofNat arguments.length] else [])
        = if arguments.length = 0 then [] else [UInt32.ofNat arguments.length] := by
    cases arguments <;> simp
  unfold Builder.function at h
  simp only [hempty, length_map, hlead, ite_error_eq_ok, Bool.not_eq_true] at h
  obtain ⟨hne, h⟩ := h
  obtain ⟨hencode, hlength⟩ := encode_eq hne
  rw [hencode, ← hkey] at h
  refine ⟨hkey ▸ hlength, ?_⟩
  split at h
  · next index hsearch =>
    obtain ⟨found, hfound, hfoundKey⟩ := exists_of_search hsearch
    rw [hfound, Except.ok.injEq, Prod.mk.injEq] at h
    obtain ⟨rfl, rfl⟩ := h
    exact .inl ⟨rfl, (hinv.mem_functionOrder found).mp (mem_of_getElem? hfound), hfoundKey⟩
  · next position hsearch =>
    simp only [ite_error_eq_ok, Except.ok.injEq, Prod.mk.injEq] at h
    obtain ⟨-, rfl, rfl⟩ := h
    exact .inr ⟨position, _, hsearch, rfl, rfl⟩

/-- The interned function of an index has the key of a closed term. -/
def DenotesFunction (functions : List Function) (id : ℕ) (term : ClosedTerm) : Prop :=
  ∃ function, functions[id]? = some function ∧ function.key = term.key

/-- Interning a function over interned arguments gives the closed term of its constructor. -/
theorem function_spec (hinv : Inventory bodies builder) {owner : DeclarationIdentity}
    {ts : List ClosedType}
    (hargs : List.Forall₂ (Denotes builder.types) arguments ts) (hkind : owner.kind = .function)
    (hparameters : bodies.typeParameters? owner = some arguments.length)
    (hcount : arguments.length ≤ 2)
    (h : builder.function owner arguments span = .ok (builder', id)) :
    ∃ term : ClosedTerm, term.argumentList = ts
      ∧ functionConstructor owner ts.length = some term.constructor
      ∧ Inventory bodies builder' ∧ DenotesFunction builder'.functions id term
      ∧ ∃ functions functionOrder genericFunctions, builder' = { builder with
          functions := functions
          functionOrder := functionOrder
          genericFunctions := genericFunctions }
        ∧ (functions = builder.functions ∨ functions = builder.functions
          ++ [⟨term.key, owner, arguments, !arguments.isEmpty, false⟩]) := by
  have hlength : arguments.length = ts.length := hargs.length_eq
  obtain ⟨c, hc, hnumber, htag, hlanes, harray⟩ :=
    @functionConstructor_spec owner _ (hlength ▸ hcount)
  set term := ClosedTerm.ofArguments c ts hnumber.symm with hterm
  have hlist : term.argumentList = ts := ClosedTerm.argumentList_ofArguments ..
  have hkey : term.key = encodeKey (if arguments.length = 0 then 0x41 else 0x40)
      ([owner.module, owner.sourceIndex]
        ++ if arguments.length = 0 then [] else [UInt32.ofNat arguments.length])
      (arguments.map builder.typeKey) := by
    rw [ClosedTerm.key, ClosedTerm.children_eq, hlist, map_typeKey hargs, hlength, ← htag, ← hlanes]
    rfl
  obtain ⟨hle, hcases⟩ := function_cases hinv hkey h
  have hok : ∀ processed, FunctionOk bodies builder.types
      ⟨term.key, owner, arguments, !arguments.isEmpty, processed⟩ term := fun _ =>
    { key := rfl
      key_le := hle
      kind := hkind
      count := hparameters
      generic := rfl
      constructor := by rw [hlength]; exact hc
      arguments := by rw [hlist]; exact hargs }
  refine ⟨term, hlist, hc, ?_⟩
  obtain ⟨rfl, hid, hfound⟩ | ⟨position, genericFunctions, hsearch, rfl, rfl⟩ := hcases
  · refine ⟨hinv, ⟨_, getElem?_eq_getElem hid, ?_⟩, _, _, _, rfl, .inl rfl⟩
    rwa [functionKey_of_getElem? (getElem?_eq_getElem hid)] at hfound
  · exact ⟨hinv.addFunction (hok false) hsearch, ⟨_, getElem?_concat_length, rfl⟩, _, _, _,
      rfl, .inr rfl⟩

/-- A function that is found by its key was interned for the same declaration. -/
theorem Inventory.denotedFunction (hinv : Inventory bodies builder)
    (h : DenotesFunction builder.functions id term) :
    ∃ function, builder.functions[id]? = some function
      ∧ FunctionOk bodies builder.types function term := by
  obtain ⟨function, hfunction, hkey⟩ := h
  obtain ⟨other, hother⟩ := hinv.functions function (mem_of_getElem? hfunction)
  have heq : other = term := ClosedTerm.key_injective (lt_of_le_of_lt hother.key_le (by decide))
    (hother.key.symm.trans hkey)
  exact ⟨function, hfunction, heq ▸ hother⟩

/-! ### The start -/

/-- The builder with the three scalar types, and nothing else. -/
def Builder.scalars (bounds : Bounds) : Builder where
  types := [⟨[0], .bool, [], 0, true, [], true⟩, ⟨[1], .i32, [], 0, true, [], true⟩,
    ⟨[2], .string, [], 0, true, [], true⟩]
  typeOrder := [0, 1, 2]
  functions := []
  functionOrder := []
  edges := []
  generated := []
  generatedReverse := [[], [], []]
  argumentUses := []
  bounds := bounds
  errors := ⟨[]⟩
  genericData := 0
  genericFunctions := 0

theorem new_eq_ok :
    Builder.new bodies = .ok builder ↔ ∃ bounds, Bounds.new bodies = .ok bounds
      ∧ builder = .scalars bounds := by
  rw [Builder.new, bind_eq_ok]
  refine exists_congr fun bounds => and_congr_right fun _ => ?_
  exact ⟨fun h => (Except.ok.inj h).symm, fun h => h ▸ rfl⟩

theorem inventory_empty (bounds : Bounds) :
    Inventory bodies ⟨[], [], [], [], [], [], [], [], bounds, ⟨[]⟩, 0, 0⟩ where
  types _ _ h := nomatch h
  functions _ h := nomatch h
  typeOrder_sorted := .nil
  mem_typeOrder _ := by simp
  functionOrder_sorted := .nil
  mem_functionOrder _ := by simp
  edges_sorted := .nil

theorem nodeOk_scalar {shape : TypeShape} {c : TypeConstructor} {types : List Node}
    (harity : bodies.arity shape = some 0) (hc : bodies.constructor shape 0 = some c)
    (hzero : c.count = 0) (hlanes : c.lanes = []) (htag : c.tag = tag) :
    NodeOk bodies types ⟨[tag], shape, [], 0, true, [], true⟩
      (.ofArguments c [] (by rw [hzero]; rfl)) := by
  have hkey : (ClosedType.ofArguments c [] (by rw [hzero]; rfl)).key = [tag] := by
    rw [ClosedType.key_eq, ClosedType.constructor_ofArguments, ClosedType.arguments_ofArguments,
      hlanes, htag]
    rfl
  have hdepth : (ClosedType.ofArguments c [] (by rw [hzero]; rfl)).depth = 0 := by
    rw [← depth_ofArguments]
    rfl
  exact
    { key := hkey.symm
      key_le := by rw [hkey]; exact Nat.le_add_left 1 4095
      depth := hdepth.symm
      depth_le := hdepth ▸ Nat.zero_le _
      arrays := by
        rw [ClosedType.arraysWithin_iff, ClosedType.constructor_ofArguments,
          ClosedType.arguments_ofArguments]
        exact ⟨(Builder.lead_eq_ok hc).2.2, forall_mem_nil _⟩
      arity := harity
      constructor := hc
      arguments := by rw [ClosedType.arguments_ofArguments]; exact .nil }

theorem intern_inventory (hinv : Inventory bodies builder) {node : Node} {t : ClosedType}
    (hnode : NodeOk bodies builder.types node t)
    (h : builder.intern bodies node span = .ok (builder', id)) : Inventory bodies builder' := by
  obtain ⟨rfl, -, -⟩ | ⟨position, genericData, hsearch, rfl, rfl⟩ := Builder.intern_cases hinv h
  · exact hinv
  · exact hinv.addType hnode hsearch

/-- A new builder has the scalar types. -/
theorem inventory_new (h : Builder.new bodies = .ok builder) : Inventory bodies builder := by
  simp only [Builder.new, bind_eq_ok, Prod.exists, Except.ok.injEq] at h
  obtain ⟨bounds, -, b₁, i₁, h₁, b₂, i₂, h₂, b₃, i₃, h₃, rfl⟩ := h
  have hbool := intern_inventory (inventory_empty bounds)
    (nodeOk_scalar (c := .bool) rfl rfl rfl rfl rfl) h₁
  have hi32 := intern_inventory hbool (nodeOk_scalar (c := .i32) rfl rfl rfl rfl rfl) h₂
  exact intern_inventory hi32 (nodeOk_scalar (c := .string) rfl rfl rfl rfl rfl) h₃

end Zryna.Semantics.Instantiation
