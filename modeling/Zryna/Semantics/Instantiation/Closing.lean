import Mathlib.Data.List.FinRange
import Zryna.Semantics.Instantiation.Steps

/-!
# Closing a view

What interning a shape, recording dependencies and closing a view add to the builder: every closed
part of the view, and an edge from the source to every generic type inside one.
-/

namespace Zryna.Semantics.Instantiation

open Zryna.Ir.Generic Relation Checked SortedSlice List

variable {program : CheckedProgram} {bodies : BodyTypes} {builder builder' : Builder}

/-! ### Constructors and declarations -/

theorem constructor_nominal {owner : DeclarationIdentity} {count : ℕ} {c : TypeConstructor}
    (h : bodies.constructor (.nominal owner) count = some c) :
    (∃ data, bodies.data? owner = some data) ∧ c.generic = decide (0 < count)
      ∧ ∀ t : ClosedType, t.constructor = c → ownerOf t = some owner := by
  simp only [BodyTypes.constructor] at h
  split at h
  case h_7 => cases h
  all_goals
    next hdata =>
      have hkind := BodyTypes.kind_of_data? hdata
      obtain ⟨module, kind, index⟩ := owner
      obtain rfl : _ = kind := hkind
      cases h
      refine ⟨⟨_, hdata⟩, rfl, fun t ht => ?_⟩
      rw [ownerOf, ht]
      rfl

theorem ownerOf_of_constructor {owner : DeclarationIdentity} {count : ℕ} {t : ClosedType}
    (h : bodies.constructor (.nominal owner) count = some t.constructor) : ownerOf t = some owner :=
  (constructor_nominal h).2.2 t rfl

theorem shape_of_ownerOf {owner : DeclarationIdentity} {shape : TypeShape} {count : ℕ}
    {t : ClosedType} (h : bodies.constructor shape count = some t.constructor)
    (howner : ownerOf t = some owner) : shape = .nominal owner := by
  unfold BodyTypes.constructor at h
  split at h
  case h_10 =>
    rw [ownerOf_of_constructor h] at howner
    rw [Option.some.inj howner]
  case h_11 => cases h
  all_goals
    rw [ownerOf, ← Option.some.inj h] at howner
    cases howner

/-- A shape is generic exactly when its types are instances of a generic declaration. -/
theorem generic_eq {shape : TypeShape} {count : ℕ} {c : TypeConstructor}
    (harity : bodies.arity shape = some count) (h : bodies.constructor shape count = some c) :
    Builder.generic bodies shape = c.generic := by
  have hcases := h
  unfold BodyTypes.constructor at hcases
  split at hcases
  case h_10 _ owner =>
    obtain ⟨⟨data, hdata⟩, hgeneric, -⟩ := constructor_nominal h
    rw [hgeneric, Builder.generic]
    have hparameters : bodies.typeParameters? owner = some count := by
      have hkind := BodyTypes.kind_of_data? hdata
      rw [BodyTypes.typeParameters?]
      cases howner : owner.kind with
      | function => exact absurd (hkind.trans howner) data.kind.declarationKind_ne_function
      | struct | enum => exact harity
    rw [hparameters]
    rfl
  case h_11 => cases hcases
  all_goals
    cases hcases
    rfl

/-! ### Edges -/

/-- Only the edges differ. -/
def Edges (builder builder' : Builder) (edges : List UInt8 × List UInt8 → Prop) : Prop :=
  ∃ all, builder' = { builder with edges := all } ∧ Sorted toLex all
    ∧ ∀ e, e ∈ all ↔ e ∈ builder.edges ∨ edges e

theorem Edges.extends {edges : List UInt8 × List UInt8 → Prop} (hsound : Sound program builder)
    (h : Edges builder builder' edges) :
    Extends program noJob (fun _ => False) edges builder builder' := by
  obtain ⟨all, rfl, hsorted, hmem⟩ := h
  exact .of_edges hsound rfl rfl rfl rfl rfl hsorted hmem

theorem edge_spec {source target : List UInt8} {span : Option UntrustedSpan}
    (hsorted : Sorted toLex builder.edges) (h : builder.edge source target span = .ok builder') :
    Edges builder builder' (· = (source, target)) := by
  unfold Builder.edge at h
  split at h
  · next i hsearch =>
    cases h
    obtain ⟨found, hfound, hkey⟩ := exists_of_search hsearch
    have hmem : (source, target) ∈ builder.edges :=
      toLex.injective hkey ▸ mem_of_getElem? hfound
    exact ⟨builder.edges, rfl, hsorted, fun e => ⟨.inl, fun h => h.elim id (· ▸ hmem)⟩⟩
  · next position hsearch =>
    simp only [ite_error_eq_ok, Except.ok.injEq] at h
    obtain ⟨-, rfl⟩ := h
    exact ⟨_, rfl, sorted_insertAt hsorted hsearch, fun e => by
      rw [mem_insertAt, or_comm]⟩

/-- An edge to every generic type inside a type. -/
theorem dependencyOn_spec {source : List UInt8} {span : Option UntrustedSpan} {id : ℕ}
    {t : ClosedType} (hinv : Inventory bodies builder) (hid : Denotes builder.types id t)
    (h : Builder.dependencyOn bodies source span id builder = .ok builder') :
    Edges builder builder' fun e =>
      ∃ g : ClosedType, g.Subterm t ∧ g.constructor.generic = true ∧ e = (source, g.key) := by
  induction id using Nat.strongRecOn generalizing builder builder' t with
  | _ id ih =>
  obtain ⟨node, hnode, hok⟩ := hinv.denoted hid
  rw [Builder.dependencyOn, hnode] at h
  dsimp only at h
  rw [generic_eq hok.arity hok.constructor] at h
  have hself : ∃ first, Edges builder first
      (fun e => t.constructor.generic = true ∧ e = (source, t.key))
      ∧ node.arguments.reverse.foldlM (fun builder argument =>
        if argument < id then Builder.dependencyOn bodies source span argument builder
        else .error .internalFailure) first = .ok builder' := by
    split at h
    · next hgeneric =>
      obtain ⟨first, hfirst, hrest⟩ := bind_eq_ok.mp h
      obtain ⟨all, rfl, hsorted, hmem⟩ := edge_spec hinv.edges_sorted hfirst
      exact ⟨_, ⟨all, rfl, hsorted, fun e => by simp [hmem, hok.key, hgeneric]⟩, hrest⟩
    · next hgeneric =>
      exact ⟨builder, ⟨builder.edges, rfl, hinv.edges_sorted, fun e => by simp [hgeneric]⟩, h⟩
  obtain ⟨first, hself, hrest⟩ := hself
  -- the arguments, from the last to the first
  have harguments : ∀ (ids : List ℕ) (us : List ClosedType) (b b' : Builder),
      List.Forall₂ (Denotes (builder.types.take id)) ids us → b.types = builder.types →
      Sorted toLex b.edges → Inventory bodies b →
      ids.foldlM (fun builder argument =>
        if argument < id then Builder.dependencyOn bodies source span argument builder
        else .error .internalFailure) b = .ok b' →
      Edges b b' fun e => ∃ u ∈ us, ∃ g : ClosedType, g.Subterm u ∧ g.constructor.generic = true
        ∧ e = (source, g.key) := by
    intro ids us b b' hids
    induction hids generalizing b with
    | nil =>
      intro _ hsorted _ h
      obtain rfl := Except.ok.inj h
      exact ⟨b.edges, rfl, hsorted, fun e => by simp⟩
    | @cons argument u ids us hargument _ ihlist =>
      intro htypes hsorted hb h
      rw [foldlM_cons, bind_eq_ok] at h
      obtain ⟨next, hnext, hrest⟩ := h
      have hlt : argument < id := by
        have := hargument.lt
        rw [length_take] at this
        omega
      rw [if_pos hlt] at hnext
      obtain ⟨all, rfl, hall, hmem⟩ := ih argument hlt hb (htypes ▸ hargument.of_take) hnext
      obtain ⟨all', rfl, hall', hmem'⟩ := ihlist { b with edges := all } htypes hall
        (hb.setEdges hall) hrest
      refine ⟨all', rfl, hall', fun e => ?_⟩
      rw [hmem', hmem]
      simp only [mem_cons, exists_eq_or_imp, or_assoc]
  obtain ⟨all, rfl, hsorted, hmem⟩ := hself
  obtain ⟨all', rfl, hsorted', hmem'⟩ := harguments _ _
    { builder with edges := all } _ (rel_reverse hok.arguments) rfl hsorted
    (hinv.setEdges hsorted) hrest
  refine ⟨all', rfl, hsorted', fun e => ?_⟩
  rw [hmem', hmem, or_assoc]
  refine or_congr_right ⟨?_, ?_⟩
  · rintro (⟨hgeneric, rfl⟩ | ⟨u, hu, g, hinner, hgeneric, rfl⟩)
    · exact ⟨t, .refl t, hgeneric, rfl⟩
    · exact ⟨g, .argument (mem_reverse.mp hu) hinner, hgeneric, rfl⟩
  · rintro ⟨g, hinner, hgeneric, rfl⟩
    cases hinner with
    | refl => exact .inl ⟨hgeneric, rfl⟩
    | argument hmem hinner => exact .inr ⟨_, mem_reverse.mpr hmem, g, hinner, hgeneric, rfl⟩

/-- What a type that is used in an instance adds. -/
def UseEdges (source : List UInt8) (t : ClosedType) (e : List UInt8 × List UInt8) : Prop :=
  source ≠ [] ∧ ∃ g : ClosedType, g.Subterm t ∧ g.constructor.generic = true ∧ e = (source, g.key)

theorem dependency_spec {source : List UInt8} {span : Option UntrustedSpan} {id : ℕ}
    {t : ClosedType} (hsound : Sound program builder) (hid : Denotes builder.types id t)
    (h : builder.dependency program.toBodyTypes source id span = .ok builder') :
    Extends program noJob (fun _ => False) (UseEdges source t) builder builder' := by
  unfold Builder.dependency at h
  split at h
  · next hempty =>
    cases h
    have hnil : source = [] := isEmpty_iff.mp hempty
    exact (Extends.refl hsound).congr (fun _ => Iff.rfl) fun e => by simp [UseEdges, hnil]
  · next hne =>
    have hnil : source ≠ [] := fun hnil => hne (isEmpty_iff.mpr hnil)
    exact ((dependencyOn_spec hsound.inventory hid h).extends hsound).congr (fun _ => Iff.rfl)
      fun e => by rw [UseEdges, and_iff_right hnil]

/-- The graph of expansion is not part of the inventory. -/
theorem generatedEdge_extends {source target : ℕ} {span : Option UntrustedSpan}
    (hsound : Sound program builder)
    (h : builder.generatedEdge program.toBodyTypes source target span = .ok builder') :
    Extends program noJob (fun _ => False) (fun _ => False) builder builder' := by
  unfold Builder.generatedEdge at h
  split at h
  · exact Except.ok.inj h ▸ .refl hsound
  · simp only [bind_eq_ok] at h
    obtain ⟨path, -, h⟩ := h
    cases path with
    | some path => cases h
    | none =>
      cases h
      exact .of_same hsound rfl rfl rfl rfl rfl rfl

/-! ### Interned types -/

/-- An argument that is not a value makes the type unstorable. -/
theorem Unstorable.of_holds {t u : ClosedType} (h : Holds bodies t u) (hu : Unstorable bodies u) :
    Unstorable bodies t := by
  obtain ⟨w, hpath, hw⟩ := hu
  exact ⟨w, hpath.head h, hw⟩

/-- What the arguments of an interned function denote does not change. -/
theorem Inventory.function_arguments_iff (hinv : Inventory bodies builder)
    (hinv' : Inventory bodies builder')
    (hdenotes : ∀ i u, Denotes builder.types i u → Denotes builder'.types i u)
    {function : Function} (hfunction : function ∈ builder.functions) {us : List ClosedType} :
    List.Forall₂ (Denotes builder'.types) function.arguments us
      ↔ List.Forall₂ (Denotes builder.types) function.arguments us := by
  refine ⟨fun h => ?_, fun h => h.imp hdenotes⟩
  obtain ⟨term, hterm⟩ := hinv.functions function hfunction
  rw [hinv'.forall₂_unique h (hterm.arguments.imp hdenotes)]
  exact hterm.arguments

theorem internShape_extends (hsound : Sound program builder) {shape : TypeShape}
    {arguments : List ℕ} {ts : List ClosedType} {c : TypeConstructor} {id : ℕ}
    {spans : List (Option UntrustedSpan)} {span : Option UntrustedSpan}
    (hargs : List.Forall₂ (Denotes builder.types) arguments ts)
    (harity : program.arity shape = some arguments.length)
    (hc : program.constructor shape arguments.length = some c)
    (h : builder.internShape program.toBodyTypes shape arguments spans span = .ok (builder', id)) :
    ∃ hcount : ts.length = c.count.toNat, Denotes builder'.types id (.ofArguments c ts hcount)
      ∧ Extends program noJob (· = .type (.ofArguments c ts hcount)) (fun _ => False)
        builder builder' := by
  obtain ⟨hcount, hinv, hid, hadded⟩ := internShape_spec hsound.inventory hargs harity hc h
  refine ⟨hcount, hid, ?_⟩
  set t := ClosedType.ofArguments c ts hcount with ht
  have hkeep : ∀ (i : ℕ) (node : Node), builder.types[i]? = some node →
      builder'.types[i]? = some node := by
    intro i node hnode
    obtain hsame | ⟨added, happend, -⟩ := hadded.types
    · rwa [hsame]
    · rw [happend, getElem?_append_left (List.getElem?_eq_some_iff.mp hnode).1, hnode]
  have hdenotes : ∀ i u, Denotes builder.types i u → Denotes builder'.types i u :=
    fun i u hu => hu.mono fun node hnode => ⟨node, hkeep i node hnode, rfl⟩
  -- a node that is new is the one that was added
  have hnew : ∀ (i : ℕ) (node : Node), builder'.types[i]? = some node →
      builder.types[i]? = some node ∨ i = builder.types.length ∧ node.key = t.key
        ∧ node.shape = shape ∧ node.arguments = arguments ∧ node.processed = false
        ∧ node.members = [] ∧ (node.value = false →
          (∃ owner, shape = .nominal owner ∧ builder.bounds.value owner = .ok false)
            ∨ ∃ argument ∈ arguments, builder.isValue argument = false) := by
    intro i node hnode
    obtain hsame | ⟨added, happend, hfields⟩ := hadded.types
    · exact .inl (hsame ▸ hnode)
    · rw [happend] at hnode
      by_cases hlt : i < builder.types.length
      · exact .inl (by rwa [getElem?_append_left hlt] at hnode)
      · obtain ⟨hi, -⟩ := List.getElem?_eq_some_iff.mp hnode
        obtain rfl : i = builder.types.length := by
          rw [length_append, length_singleton] at hi
          omega
        rw [getElem?_concat_length] at hnode
        exact .inr ⟨rfl, Option.some.inj hnode ▸ hfields⟩
  have hvalue : ∀ argument ∈ arguments, builder.isValue argument = false →
      Unstorable program.toBodyTypes t := by
    intro argument hargument hfalse
    obtain ⟨u, hu, node, hnode, hkey⟩ := exists_denoted hargs hargument
    rw [Builder.isValue, hnode] at hfalse
    refine .of_holds (.argument ?_) (hsound.values argument node u hnode hkey hfalse)
    rwa [ht, ClosedType.arguments_ofArguments]
  have hbound : ∀ owner, shape = .nominal owner → builder.bounds.value owner = .ok false →
      Unstorable program.toBodyTypes t := by
    rintro owner rfl hfalse
    exact hsound.bounds owner t hfalse ((constructor_nominal hc).2.2 t rfl)
  exact
    { sound :=
        { inventory := hinv
          values := fun i node u hnode hkey hfalse => by
            obtain hold | ⟨-, hnodeKey, -, -, -, -, hreason⟩ := hnew i node hnode
            · exact hsound.values i node u hold hkey hfalse
            · obtain rfl : t = u :=
                hinv.denotes_unique ⟨node, hnode, hnodeKey⟩ ⟨node, hnode, hkey⟩
              obtain ⟨owner, hshape, hfalse⟩ | ⟨argument, hargument, hfalse⟩ := hreason hfalse
              · exact hbound owner hshape hfalse
              · exact hvalue argument hargument hfalse
          bounds := fun owner u hfalse => hsound.bounds owner u (hadded.bounds ▸ hfalse) }
      types := fun i node hnode => ⟨node, hkeep i node hnode, .refl node, fun _ => rfl⟩
      functions := fun i function hfunction =>
        ⟨function, hadded.functions ▸ hfunction, .refl function, fun _ => rfl⟩
      freshType := fun i node hnode hi => by
        obtain hold | ⟨-, -, -, -, hprocessed, hmembers, -⟩ := hnew i node hnode
        · exact absurd (List.getElem?_eq_some_iff.mp hold).1 (not_lt.mpr hi)
        · exact ⟨hprocessed, hmembers⟩
      freshFunction := fun i function hfunction hi =>
        absurd (List.getElem?_eq_some_iff.mp (hadded.functions ▸ hfunction)).1 (not_lt.mpr hi)
      has := fun i => by
        cases i with
        | type u =>
          rw [Instance.type.injEq]
          constructor
          · rintro ⟨i, node, hnode, hkey⟩
            obtain hold | ⟨-, hnodeKey, -⟩ := hnew i node hnode
            · exact .inl ⟨i, node, hold, hkey⟩
            · exact .inr (hinv.denotes_unique ⟨node, hnode, hkey⟩ ⟨node, hnode, hnodeKey⟩)
          · rintro (⟨i, hi⟩ | rfl)
            · exact ⟨i, hdenotes i u hi⟩
            · exact ⟨id, hid⟩
        | function owner us =>
          simp only [Builder.Has, hadded.functions, reduceCtorEq, or_false]
          refine exists_congr fun function => and_congr_right fun hfunction => ?_
          rw [hsound.inventory.function_arguments_iff hinv hdenotes hfunction]
      mem_edges := fun e => by rw [hadded.edges, or_false] }

/-! ### Interned functions -/

theorem functionConstructor_inj {owner owner' : DeclarationIdentity} {count count' : ℕ}
    {c : Constructor} (h : functionConstructor owner count = some c)
    (h' : functionConstructor owner' count' = some c) (hkind : owner.kind = .function)
    (hkind' : owner'.kind = .function) : owner = owner' := by
  obtain ⟨module, _, index⟩ := owner
  obtain ⟨module', _, index'⟩ := owner'
  obtain rfl := hkind
  obtain rfl := hkind'
  match count, count' with
  | 0, 0 | 1, 1 | 2, 2 =>
    have heq := (Option.some.inj h).trans (Option.some.inj h').symm
    simp only [Constructor.sourceRoot.injEq, Constructor.functionInstance.injEq,
      DeclarationIdentity.lanes, Prod.mk.injEq, and_true] at heq
    rw [heq.1, heq.2]
  | 0, 1 | 0, 2 | 1, 0 | 1, 2 | 2, 0 | 2, 1 =>
    have heq := (Option.some.inj h).trans (Option.some.inj h').symm
    simp at heq
  | _ + 3, _ => cases h
  | _, _ + 3 => cases h'

theorem key_of_functionConstructor {owner : DeclarationIdentity} {term : ClosedTerm}
    (h : functionConstructor owner term.argumentList.length = some term.constructor) :
    term.key = (Instance.function owner term.argumentList).key := by
  rw [ClosedTerm.key, ClosedTerm.children_eq, Instance.key]
  generalize term.argumentList = ts at h ⊢
  obtain _ | ⟨_, _ | ⟨_, _ | _⟩⟩ := ts
  case cons.cons.cons => cases h
  all_goals
    rw [← Option.some.inj h]
    rfl

/-- Interning a function over interned arguments adds it. -/
theorem function_extends (hsound : Sound program builder) {owner : DeclarationIdentity}
    {arguments : List ℕ} {ts : List ClosedType} {span : Option UntrustedSpan} {id : ℕ}
    (hargs : List.Forall₂ (Denotes builder.types) arguments ts) (hkind : owner.kind = .function)
    (hparameters : program.typeParameters? owner = some arguments.length)
    (h : builder.function owner arguments span = .ok (builder', id)) :
    (∃ function, builder'.functions[id]? = some function
        ∧ function.key = (Instance.function owner ts).key ∧ function.generic = !ts.isEmpty)
      ∧ Extends program noJob (· = .function owner ts) (fun _ => False) builder builder' := by
  obtain ⟨term, rfl, hconstructor, hinv, hdenoted, functions, functionOrder, genericFunctions, rfl,
    hfunctions⟩ := function_spec hsound.inventory hargs hkind hparameters
      (program.typeParameters_le _ _ hparameters) h
  obtain ⟨found, hfound, hok⟩ := hinv.denotedFunction hdenoted
  have howner : found.owner = owner :=
    functionConstructor_inj hok.constructor hconstructor hok.kind hkind
  have hempty : found.arguments.isEmpty = term.argumentList.isEmpty := by
    have hlength := hok.arguments.length_eq
    rw [Bool.eq_iff_iff, isEmpty_iff_length_eq_zero, isEmpty_iff_length_eq_zero, hlength]
  have hnew : ∀ (i : ℕ) (function : Function), functions[i]? = some function →
      builder.functions[i]? = some function ∨ i = builder.functions.length
        ∧ function = ⟨term.key, owner, arguments, !arguments.isEmpty, false⟩ := by
    intro i function hfunction
    obtain rfl | rfl := hfunctions
    · exact .inl hfunction
    · by_cases hlt : i < builder.functions.length
      · exact .inl (by rwa [getElem?_append_left hlt] at hfunction)
      · obtain ⟨hi, -⟩ := List.getElem?_eq_some_iff.mp hfunction
        obtain rfl : i = builder.functions.length := by
          rw [length_append, length_singleton] at hi
          omega
        rw [getElem?_concat_length] at hfunction
        exact .inr ⟨rfl, (Option.some.inj hfunction).symm⟩
  have hkeep : ∀ (i : ℕ) (function : Function), builder.functions[i]? = some function →
      functions[i]? = some function := by
    intro i function hfunction
    obtain rfl | rfl := hfunctions
    · exact hfunction
    · rw [getElem?_append_left (List.getElem?_eq_some_iff.mp hfunction).1, hfunction]
  refine ⟨⟨found, hfound, ?_, ?_⟩, ?_⟩
  · rw [hok.key, key_of_functionConstructor hconstructor]
  · rw [hok.generic, hempty]
  · exact
      { sound := ⟨hinv, hsound.values, hsound.bounds⟩
        types := fun i node hnode => ⟨node, hnode, .refl node, fun _ => rfl⟩
        functions := fun i function hfunction =>
          ⟨function, hkeep i function hfunction, .refl function, fun _ => rfl⟩
        freshType := fun i node hnode hi =>
          absurd (List.getElem?_eq_some_iff.mp hnode).1 (not_lt.mpr hi)
        freshFunction := fun i function hfunction hi => by
          obtain hold | ⟨-, rfl⟩ := hnew i function hfunction
          · exact absurd (List.getElem?_eq_some_iff.mp hold).1 (not_lt.mpr hi)
          · rfl
        has := fun i => by
          cases i with
          | type u => exact ⟨.inl, fun h => h.elim (fun h => h) nofun⟩
          | function owner' us =>
            constructor
            · rintro ⟨function, hmem, rfl, hus⟩
              obtain ⟨i, hi⟩ := getElem?_of_mem hmem
              obtain hold | ⟨-, rfl⟩ := hnew i function hi
              · exact .inl ⟨function, mem_of_getElem? hold, rfl, hus⟩
              · rw [hsound.inventory.forall₂_unique hus hargs]
                exact .inr rfl
            · rintro (⟨function, hmem, rfl, hus⟩ | heq)
              · obtain ⟨i, hi⟩ := getElem?_of_mem hmem
                exact ⟨function, mem_of_getElem? (hkeep i function hi), rfl, hus⟩
              · obtain ⟨rfl, rfl⟩ := Instance.function.inj heq
                exact ⟨found, mem_of_getElem? hfound, howner, hok.arguments⟩
        mem_edges := fun e => (or_false _).symm ▸ Iff.rfl }

/-! ### Closing -/

section Parts

variable {owner : DeclarationIdentity} {ts : List ClosedType} {shape : TypeShape}
  {originalSpan headSpan : Option UntrustedSpan} {count : ℕ} {children : Fin count → TypeView}
  {t : ClosedType}

theorem within_node {part : TypeView} :
    part.Within (.node shape originalSpan headSpan count children)
      ↔ part = .node shape originalSpan headSpan count children
        ∨ ∃ i, part.Within (children i) := by
  constructor
  · intro h
    cases h with
    | self => exact .inl rfl
    | child i h => exact .inr ⟨i, h⟩
  · rintro (rfl | ⟨i, h⟩)
    · exact .self _
    · exact .child i h

theorem closedPart_node :
    ClosedPart bodies owner ts (.node shape originalSpan headSpan count children) t
      ↔ (TypeView.node shape originalSpan headSpan count children).closed bodies owner ts = some t
        ∨ ∃ i, ClosedPart bodies owner ts (children i) t := by
  simp only [ClosedPart, within_node]
  constructor
  · rintro ⟨part, rfl | ⟨i, hi⟩, hpart⟩
    · exact .inl hpart
    · exact .inr ⟨i, part, hi, hpart⟩
  · rintro (hself | ⟨i, part, hi, hpart⟩)
    · exact ⟨_, .inl rfl, hself⟩
    · exact ⟨part, .inr ⟨i, hi⟩, hpart⟩

theorem closed_parameter {parameter : TypeParameterIdentity} :
    (TypeView.node (.parameter parameter) originalSpan headSpan count children).closed bodies owner ts
      = if parameter.declaration = owner then ts[parameter.index.val]? else none := by
  rw [TypeView.closed]

theorem closed_application (h : ∀ parameter, shape ≠ .parameter parameter) :
    (TypeView.node shape originalSpan headSpan count children).closed bodies owner ts
      = ((List.ofFn fun i => (children i).closed bodies owner ts).mapM id).bind fun us =>
        (bodies.constructor shape count).bind fun c =>
          if h : us.length = c.count.toNat then some (.ofArguments c us h) else none := by
  rw [TypeView.closed]
  · rfl
  · exact h

theorem closed_open (hopen : shape.Open) (hnot : ∀ parameter, shape ≠ .parameter parameter) :
    (TypeView.node shape originalSpan headSpan count children).closed bodies owner ts = none := by
  rw [closed_application hnot]
  have hc : bodies.constructor shape count = none := by
    cases shape <;> first | rfl | exact hopen.elim
  rw [hc]
  cases (List.ofFn fun i => (children i).closed bodies owner ts).mapM id <;> rfl

end Parts

variable {types : List Node} {headSpan originalSpan : Option UntrustedSpan}

theorem exists_of_rel_some {result : Option ℕ} {t : ClosedType}
    (h : Option.Rel (Denotes types) result (some t)) : ∃ id, result = some id ∧ Denotes types id t := by
  cases h with
  | some h => exact ⟨_, rfl, h⟩

theorem eq_none_of_rel {α β : Type} {R : α → β → Prop} {y : Option β}
    (h : Option.Rel R none y) : y = none := by
  cases h
  rfl

theorem exists_of_rel_left {α β : Type} {R : α → β → Prop} {x : α} {y : Option β}
    (h : Option.Rel R (some x) y) : ∃ b, y = some b ∧ R x b := by
  cases h with
  | some h => exact ⟨_, rfl, h⟩

/-- Results that denote what the parts close to denote it together. -/
theorem rel_mapM {results : List (Option ℕ)} {us : List (Option ClosedType)}
    (h : List.Forall₂ (Option.Rel (Denotes types)) results us) :
    Option.Rel (List.Forall₂ (Denotes types)) (results.mapM id) (us.mapM id) := by
  induction h with
  | nil => exact .some .nil
  | @cons result u results us hfirst _ ih =>
    cases hfirst with
    | none => exact .none
    | some hfirst =>
      rw [mapM_cons, mapM_cons]
      generalize results.mapM id = rest at ih ⊢
      generalize us.mapM id = rest' at ih ⊢
      cases ih with
      | none => exact .none
      | some ih => exact .some (.cons hfirst ih)

theorem mapM_id_eq_some {α : Type} {xs : List (Option α)} {ys : List α} :
    xs.mapM id = some ys ↔ xs = ys.map some := by
  induction xs generalizing ys with
  | nil => cases ys <;> simp
  | cons x xs ih =>
    simp only [mapM_cons, Option.bind_eq_bind, Option.bind_eq_some_iff, Option.pure_def,
      Option.some.injEq, ih]
    cases ys <;> simp

theorem rel_getElem? {ids : List ℕ} {ts : List ClosedType}
    (h : List.Forall₂ (Denotes types) ids ts) (i : ℕ) : Option.Rel (Denotes types) ids[i]? ts[i]? := by
  induction h generalizing i with
  | nil => exact .none
  | cons hfirst _ ih =>
    cases i with
    | zero => exact .some hfirst
    | succ i => exact ih i

section

variable (bodies : BodyTypes) (owner : DeclarationIdentity) (ts : List ClosedType)

def PartGains (view : TypeView) (i : Instance) : Prop :=
  ∃ t, i = .type t ∧ ClosedPart bodies owner ts view t

def PartEdges (source : List UInt8) (view : TypeView) (e : List UInt8 × List UInt8) : Prop :=
  ∃ t, ClosedPart bodies owner ts view t ∧ UseEdges source t e

end

theorem partGains_node {owner : DeclarationIdentity} {ts : List ClosedType} {shape : TypeShape}
    {count : ℕ} {children : Fin count → TypeView} (i : Instance) :
    ((∃ k ∈ List.finRange count, PartGains bodies owner ts (children k) i)
        ∨ ∃ t, i = .type t ∧ (TypeView.node shape originalSpan headSpan count children).closed bodies
          owner ts = some t)
      ↔ PartGains bodies owner ts (.node shape originalSpan headSpan count children) i := by
  simp only [PartGains, closedPart_node, mem_finRange, true_and]
  constructor
  · rintro (⟨k, t, rfl, ht⟩ | ⟨t, rfl, ht⟩)
    · exact ⟨t, rfl, .inr ⟨k, ht⟩⟩
    · exact ⟨t, rfl, .inl ht⟩
  · rintro ⟨t, rfl, ht | ⟨k, ht⟩⟩
    · exact .inr ⟨t, rfl, ht⟩
    · exact .inl ⟨k, t, rfl, ht⟩

theorem partEdges_node {owner : DeclarationIdentity} {ts : List ClosedType} {source : List UInt8}
    {shape : TypeShape} {count : ℕ}
    {children : Fin count → TypeView} (e : List UInt8 × List UInt8) :
    ((∃ k ∈ List.finRange count, PartEdges bodies owner ts source (children k) e)
        ∨ ∃ t, (TypeView.node shape originalSpan headSpan count children).closed bodies owner ts
          = some t ∧ UseEdges source t e)
      ↔ PartEdges bodies owner ts source (.node shape originalSpan headSpan count children) e := by
  simp only [PartEdges, closedPart_node, mem_finRange, true_and]
  constructor
  · rintro (⟨k, t, ht, he⟩ | ⟨t, ht, he⟩)
    · exact ⟨t, .inr ⟨k, ht⟩, he⟩
    · exact ⟨t, .inl ht, he⟩
  · rintro ⟨t, ht | ⟨k, ht⟩, he⟩
    · exact .inr ⟨t, ht, he⟩
    · exact .inl ⟨k, t, ht, he⟩

section Closing

variable {owner : DeclarationIdentity} {arguments : List ℕ} {ts : List ClosedType}
  {source : List UInt8} {origin : Option ℕ} {span : Option UntrustedSpan}

theorem closeShape_spec {shape : TypeShape} {originalSpan headSpan : Option UntrustedSpan}
    {count : ℕ} {children : Fin count → TypeView} {results : List (Option ℕ)}
    {spans : List (Option UntrustedSpan)} {result : Option ℕ} (hsound : Sound program builder)
    (harity : program.arity shape = some count)
    (hargs : List.Forall₂ (Denotes builder.types) arguments ts)
    (hresults : List.Forall₂ (Option.Rel (Denotes builder.types)) results
      (List.ofFn fun i => (children i).closed program.toBodyTypes owner ts))
    (h : builder.closeShape program.toBodyTypes ⟨owner, arguments⟩ shape results spans span
      = .ok (builder', result)) :
    Option.Rel (Denotes builder'.types) result
        ((TypeView.node shape originalSpan headSpan count children).closed program.toBodyTypes
          owner ts)
      ∧ Extends program noJob
        (fun i => ∃ t, i = .type t
          ∧ (TypeView.node shape originalSpan headSpan count children).closed program.toBodyTypes
            owner ts = some t)
        (fun _ => False) builder builder' := by
  have hnone : ∀ {closed : Option ClosedType}, closed = none →
      (Option.Rel (Denotes builder.types) none closed)
        ∧ Extends program noJob (fun i => ∃ t, i = Instance.type t ∧ closed = some t)
          (fun _ => False) builder builder := by
    rintro _ rfl
    exact ⟨.none, (Extends.refl hsound).congr (by simp) fun _ => Iff.rfl⟩
  unfold Builder.closeShape at h
  split at h
  case h_1 parameter =>
    cases h
    have hrel : Option.Rel (Denotes builder.types)
        (if parameter.declaration = owner then arguments[parameter.index]? else none)
        (if parameter.declaration = owner then ts[parameter.index.val]? else none) := by
      split
      · exact rel_getElem? hargs _
      · exact .none
    rw [closed_parameter]
    have hhas : ∀ i, (∃ t, i = Instance.type t
        ∧ (if parameter.declaration = owner then ts[parameter.index.val]? else none) = some t) →
          builder.Has i := by
      rintro i ⟨t, rfl, ht⟩
      rw [ht] at hrel
      obtain ⟨id, -, hid⟩ := exists_of_rel_some hrel
      exact ⟨id, hid⟩
    exact ⟨hrel, ((Extends.refl hsound).absorb hhas).congr (fun i => by rw [false_or])
      fun _ => Iff.rfl⟩
  case h_6 hparameter hunit hborrow hborrowMut hfunction =>
    rw [closed_application hparameter]
    have hrel := rel_mapM hresults
    split at h
    · next hmapM =>
      cases h
      rw [hmapM] at hrel
      rw [eq_none_of_rel hrel]
      exact hnone rfl
    · next arguments' hmapM =>
      obtain ⟨⟨next, found⟩, hintern, h⟩ := bind_eq_ok.mp h
      cases h
      rw [hmapM] at hrel
      obtain ⟨us, hus, hdenotes⟩ := exists_of_rel_left hrel
      have hlength : arguments'.length = count := by
        have hlengths := hresults.length_eq
        rwa [mapM_id_eq_some.mp hmapM, length_map, length_ofFn] at hlengths
      have hclosed : ¬ shape.Open := by
        intro hopen
        cases shape with
        | parameter parameter => exact hparameter parameter rfl
        | unit => exact hunit rfl
        | borrow => exact hborrow rfl
        | borrowMut => exact hborrowMut rfl
        | function owner => exact hfunction owner rfl
        | _ => exact hopen.elim
      obtain ⟨c, hc⟩ := Builder.exists_constructor hclosed harity (program.arity_le harity)
      obtain ⟨hcount, hdenoted, hextends⟩ := internShape_extends hsound hdenotes
        (hlength ▸ harity) (hlength ▸ hc) hintern
      rw [hus, hc, Option.bind_some, Option.bind_some, dif_pos hcount]
      exact ⟨.some hdenoted, hextends.congr (fun i => by simp) fun _ => Iff.rfl⟩
  all_goals
    cases h
    exact hnone (closed_open trivial fun _ => TypeShape.noConfusion)

theorem no_focus (job : Builder.Job) (h : noJob job) : builder.Interned job := h.elim

theorem recordUse_extends {shape : TypeShape} {id : ℕ} {t : ClosedType}
    (hsound : Sound program builder) (hid : Denotes builder.types id t)
    (h : builder.recordUse program.toBodyTypes source origin shape id span = .ok builder') :
    Extends program noJob (fun _ => False) (UseEdges source t) builder builder' := by
  obtain ⟨next, hnext, h⟩ := bind_eq_ok.mp h
  have hfirst := dependency_spec hsound hid hnext
  have hsecond : Extends program noJob (fun _ => False) (fun _ => False) next builder' := by
    split at h
    · exact Except.ok.inj h ▸ .refl hfirst.sound
    · exact Except.ok.inj h ▸ .refl hfirst.sound
    · split at h
      · exact generatedEdge_extends hfirst.sound h
      · exact Except.ok.inj h ▸ .refl hfirst.sound
  exact (hfirst.trans no_focus hsecond).congr (by simp) (by simp)

/-- Closing a view adds its closed parts, with their edges. -/
theorem close_spec {view : TypeView} {result : Option ℕ} (hview : program.ViewChecked view)
    (hsound : Sound program builder) (hargs : List.Forall₂ (Denotes builder.types) arguments ts)
    (h : Builder.close program.toBodyTypes ⟨owner, arguments⟩ source origin span view builder
      = .ok (builder', result)) :
    Option.Rel (Denotes builder'.types) result (view.closed program.toBodyTypes owner ts)
      ∧ Extends program noJob (PartGains program.toBodyTypes owner ts view)
        (PartEdges program.toBodyTypes owner ts source view) builder builder' := by
  induction view generalizing builder builder' result with
  | node shape originalSpan headSpan count children ih =>
  obtain ⟨harity, hchecked⟩ := hview
  -- the children, from the first to the last
  have hchildren : ∀ (is : List (Fin count)) (b b' : Builder) (before results : List (Option ℕ)),
      Sound program b → List.Forall₂ (Denotes b.types) arguments ts →
      is.foldlM (fun (state : Builder × List (Option ℕ)) i => do
        let closed ← Builder.close program.toBodyTypes ⟨owner, arguments⟩ source origin
          span (children i) state.1
        .ok (closed.1, state.2 ++ [closed.2])) (b, before) = .ok (b', results) →
      ∃ rest, results = before ++ rest
        ∧ List.Forall₂ (Option.Rel (Denotes b'.types)) rest
          (is.map fun i => (children i).closed program.toBodyTypes owner ts)
        ∧ Extends program noJob
          (fun x => ∃ i ∈ is, PartGains program.toBodyTypes owner ts (children i) x)
          (fun e => ∃ i ∈ is, PartEdges program.toBodyTypes owner ts source (children i) e)
          b b' := by
    intro is
    induction is with
    | nil =>
      intro b b' before results hb _ h
      cases h
      exact ⟨[], (append_nil _).symm, .nil, (Extends.refl hb).congr (by simp) (by simp)⟩
    | cons i is ihlist =>
      intro b b' before results hb hdenotes h
      rw [foldlM_cons] at h
      simp only [bind_eq_ok, Prod.exists, Except.ok.injEq] at h
      obtain ⟨_, _, ⟨next, first, hfirst, heq⟩, hrest⟩ := h
      obtain ⟨rfl, rfl⟩ := Prod.mk.inj heq
      obtain ⟨hrel, hextends⟩ := ih i (hchecked i) hb hdenotes hfirst
      obtain ⟨rest, rfl, hrels, hothers⟩ :=
        ihlist next b' _ results hextends.sound (hextends.forall₂_denotes hdenotes) hrest
      have hfirst : Option.Rel (Denotes b'.types) first
          ((children i).closed program.toBodyTypes owner ts) := by
        revert hrel
        generalize (children i).closed program.toBodyTypes owner ts = closed
        rintro (hid | _)
        · exact .some (hothers.denotes hid)
        · exact .none
      exact ⟨first :: rest, by rw [append_assoc]; rfl, .cons hfirst hrels,
        (hextends.trans no_focus hothers).congr (by simp) (by simp)⟩
  rw [Builder.close] at h
  simp only [bind_eq_ok, Prod.exists] at h
  obtain ⟨next, results, hfold, last, closed, hshape, h⟩ := h
  obtain ⟨rest, rfl, hrels, hparts⟩ := hchildren _ _ _ _ _ hsound hargs hfold
  rw [← ofFn_eq_map] at hrels
  have hdenotes := hparts.forall₂_denotes hargs
  obtain ⟨hrel, hextends⟩ := @closeShape_spec _ _ _ _ _ _ _ _ originalSpan headSpan _ _ _ _ _
    hparts.sound harity hdenotes hrels hshape
  have hboth := hparts.trans no_focus hextends
  cases closed with
  | none =>
    cases h
    refine ⟨hrel, hboth.congr partGains_node fun e => ?_⟩
    rw [← partEdges_node, eq_none_of_rel hrel]
    simp
  | some id =>
    obtain ⟨final, huse, h⟩ := bind_eq_ok.mp h
    cases h
    obtain ⟨t, ht, hid⟩ := exists_of_rel_left hrel
    have hlast := recordUse_extends hextends.sound hid huse
    rw [ht]
    refine ⟨.some (hlast.denotes hid), (hboth.trans no_focus hlast).congr (fun i => ?_)
      fun e => ?_⟩
    · rw [or_false]
      exact partGains_node i
    · rw [← partEdges_node, ht, or_false]
      simp

end Closing

end Zryna.Semantics.Instantiation
