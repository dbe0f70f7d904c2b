import Zryna.Semantics.Instantiation.Closing

/-!
# Processing a type

What processing a type adds: the closed types that it mentions, and edges to the generic ones among
them. A processed nominal type lists its members.
-/

namespace Zryna.Semantics.Instantiation

open Zryna.Ir.Generic Relation List Option

variable {program : CheckedProgram} {bodies : BodyTypes} {builder builder' : Builder}

/-! ### Written types -/

theorem CheckedProgram.sourceType_checked {owner : DeclarationIdentity} {occurrence : UInt32}
    {view : TypeView} (h : program.sourceType owner occurrence = some view) :
    program.ViewChecked view := by
  simp only [BodyTypes.sourceType, BodyTypes.record?, BodyTypes.module?, bind_eq_bind,
    bind_eq_some_iff] at h
  obtain ⟨record, ⟨module, hmodule, hrecord⟩, hview⟩ := h
  split at hview
  · exact program.sources_checked module (mem_of_getElem? hmodule) record
      (mem_of_getElem? hrecord) view hview
  · cases hview

theorem CheckedProgram.expression_checked {owner : DeclarationIdentity}
    {function : FunctionDeclaration} {expression : Expression} {view : TypeView}
    (hfunction : program.function? owner = some function)
    (hexpression : expression ∈ function.expressions) (hview : expression.type = some view) :
    program.ViewChecked view := by
  simp only [BodyTypes.function?, BodyTypes.module?, bind_eq_bind,
    bind_eq_some_iff] at hfunction
  obtain ⟨module, hmodule, hfunction⟩ := hfunction
  split at hfunction
  · exact program.expressions_checked module (mem_of_getElem? hmodule) function
      (mem_of_getElem? hfunction) expression hexpression view hview
  · cases hfunction

section

variable (bodies : BodyTypes) (owner : DeclarationIdentity) (ts : List ClosedType)

/-- What a type that is written at an occurrence adds. -/
def OccurrenceGains (occurrence : UInt32) (i : Instance) : Prop :=
  ∃ view, bodies.sourceType owner occurrence = some view ∧ PartGains bodies owner ts view i

def OccurrenceEdges
    (source : List UInt8) (occurrence : UInt32) (e : List UInt8 × List UInt8) : Prop :=
  ∃ view, bodies.sourceType owner occurrence = some view
    ∧ PartEdges bodies owner ts source view e

end

section Sources

variable {owner : DeclarationIdentity} {arguments : List ℕ} {ts : List ClosedType}
  {source : List UInt8} {origin : Option ℕ}

theorem source_spec {occurrence : UInt32} {result : Option ℕ} (hsound : Sound program builder)
    (hargs : List.Forall₂ (Denotes builder.types) arguments ts)
    (h : builder.source program.toBodyTypes ⟨owner, arguments⟩ occurrence source origin
      = .ok (builder', result)) :
    Option.Rel (Denotes builder'.types) result (program.closedSource owner ts occurrence)
      ∧ Extends program noJob (OccurrenceGains program.toBodyTypes owner ts occurrence)
        (OccurrenceEdges program.toBodyTypes owner ts source occurrence) builder builder' := by
  unfold Builder.source at h
  unfold BodyTypes.closedSource OccurrenceGains OccurrenceEdges
  dsimp only at h
  split at h
  · next hnone =>
    cases h
    rw [hnone]
    exact ⟨.none, (Extends.refl hsound).congr (by simp) (by simp)⟩
  · next view hview =>
    obtain ⟨hrel, hextends⟩ := close_spec (program.sourceType_checked hview) hsound hargs h
    rw [hview]
    exact ⟨hrel, hextends.congr (by simp) (by simp)⟩

/-- Uses and errors are not part of the inventory. -/
theorem SameInventory.extends (hsound : Sound program builder) (h : SameInventory builder builder') :
    Extends program noJob (fun _ => False) (fun _ => False) builder builder' := by
  obtain ⟨uses, errors, rfl⟩ := h
  exact .of_same hsound rfl rfl rfl rfl rfl rfl

end Sources

/-! ### A change of one node -/

theorem NodeOk.alike {earlier : List Node} {node node' : Node} {t : ClosedType}
    (h : NodeOk bodies earlier node t) (halike : node.Alike node') :
    NodeOk bodies earlier node' t where
  key := halike.key.trans h.key
  key_le := h.key_le
  depth := halike.depth.trans h.depth
  depth_le := h.depth_le
  arrays := h.arrays
  arity := by rw [halike.shape, halike.arguments]; exact h.arity
  constructor := by rw [halike.shape, halike.arguments]; exact h.constructor
  arguments := by rw [halike.arguments]; exact h.arguments

theorem FunctionOk.alike {types : List Node} {function function' : Function} {term : ClosedTerm}
    (h : FunctionOk bodies types function term) (halike : function.Alike function') :
    FunctionOk bodies types function' term where
  key := halike.key.trans h.key
  key_le := h.key_le
  kind := by rw [halike.owner]; exact h.kind
  count := by rw [halike.owner, halike.arguments]; exact h.count
  generic := by rw [halike.generic, halike.arguments]; exact h.generic
  constructor := by rw [halike.owner, halike.arguments]; exact h.constructor
  arguments := by rw [halike.arguments]; exact h.arguments

section Modify

variable {id : ℕ} {f : Node → Node}

theorem getElem?_modifyType (i : ℕ) :
    (builder.modifyType id f).types[i]?
      = (builder.types[i]?).map fun node => if id = i then f node else node := by
  rw [Builder.modifyType, getElem?_modify]
  rfl

section

variable (halike : ∀ node : Node, node.Alike (f node))

include halike

variable {i : ℕ}

theorem exists_modifyType {node : Node} (h : (builder.modifyType id f).types[i]? = some node) :
    ∃ old, builder.types[i]? = some old ∧ old.Alike node ∧ (¬ i = id → node = old)
      ∧ (i = id → node = f old) := by
  rw [getElem?_modifyType, map_eq_some_iff] at h
  obtain ⟨old, hold, rfl⟩ := h
  refine ⟨old, hold, ?_, fun hne => if_neg (Ne.symm hne), fun heq => if_pos heq.symm⟩
  split
  · exact halike old
  · exact .refl old

theorem modifyType_getElem? {node : Node} (h : builder.types[i]? = some node) :
    ∃ new, (builder.modifyType id f).types[i]? = some new ∧ node.Alike new
      ∧ (¬ i = id → new = node) ∧ (i = id → new = f node) := by
  obtain ⟨old, hold, hnew⟩ := @exists_modifyType builder id f halike i
    (if id = i then f node else node) (by rw [getElem?_modifyType, h]; rfl)
  obtain rfl : node = old := Option.some.inj (h.symm.trans hold)
  exact ⟨_, by rw [getElem?_modifyType, h]; rfl, hnew⟩

theorem denotes_modifyType {t : ClosedType} :
    Denotes (builder.modifyType id f).types i t ↔ Denotes builder.types i t := by
  constructor
  · rintro ⟨node, hnode, hkey⟩
    obtain ⟨old, hold, hsame, -⟩ := exists_modifyType halike hnode
    exact ⟨old, hold, hsame.key.symm.trans hkey⟩
  · rintro ⟨node, hnode, hkey⟩
    obtain ⟨new, hnew, hsame, -⟩ := @modifyType_getElem? _ id f halike _ _ hnode
    exact ⟨new, hnew, hsame.key.trans hkey⟩

end

theorem Inventory.modifyType (hinv : Inventory bodies builder)
    (halike : ∀ node : Node, node.Alike (f node)) : Inventory bodies (builder.modifyType id f) := by
  have hkeys : ∀ i, (builder.modifyType id f).typeKey i = builder.typeKey i := by
    intro i
    rw [Builder.typeKey, Builder.typeKey, getElem?_modifyType]
    cases builder.types[i]? with
    | none => rfl
    | some node =>
      simp only [map_some, elim_some]
      split
      · exact (halike node).key
      · rfl
  refine
    { types := fun i node hnode => ?_
      functions := fun function hfunction => ?_
      typeOrder_sorted := hinv.typeOrder_sorted.congr fun i _ => (hkeys i).symm
      mem_typeOrder := fun i => by rw [Builder.modifyType, length_modify]; exact hinv.mem_typeOrder i
      functionOrder_sorted := hinv.functionOrder_sorted
      mem_functionOrder := hinv.mem_functionOrder
      edges_sorted := hinv.edges_sorted }
  · obtain ⟨old, hold, hsame, -⟩ := exists_modifyType halike hnode
    obtain ⟨t, ht⟩ := hinv.types i old hold
    have hearlier : ∀ j u, Denotes (builder.types.take i) j u →
        Denotes ((builder.modifyType id f).types.take i) j u := by
      intro j u hu
      have hlt : j < i := by
        have := hu.lt
        rw [length_take] at this
        omega
      obtain ⟨node, hnode, hkey⟩ := (denotes_modifyType halike).mpr hu.of_take
      exact ⟨node, by rw [getElem?_take_of_lt hlt, hnode], hkey⟩
    exact ⟨t, { ht.alike hsame with arguments := (ht.alike hsame).arguments.imp hearlier }⟩
  · obtain ⟨term, hterm⟩ := hinv.functions function hfunction
    exact ⟨term, hterm.mono fun i u hu => (denotes_modifyType halike).mpr hu⟩

/-- A node may change in what does not identify it, and lose its value for a reason. -/
theorem modifyType_extends (hsound : Sound program builder)
    (halike : ∀ node : Node, node.Alike (f node))
    (hvalue : ∀ (node : Node) t, builder.types[id]? = some node → node.key = t.key →
      (f node).value = false → Unstorable program.toBodyTypes t) :
    Extends program (· = .type id) (fun _ => False) (fun _ => False) builder
      (builder.modifyType id f) where
  sound :=
    { inventory := hsound.inventory.modifyType halike
      values := fun i node t hnode hkey hfalse => by
        obtain ⟨old, hold, hsame, hother, hself⟩ := exists_modifyType halike hnode
        by_cases hi : i = id
        · subst hi
          exact hvalue old t hold (hsame.key.symm.trans hkey) (hself rfl ▸ hfalse)
        · exact hsound.values i old t hold (hsame.key.symm.trans hkey) (hother hi ▸ hfalse)
      bounds := hsound.bounds }
  types i node hnode := by
    obtain ⟨new, hnew, hsame, hother, -⟩ := @modifyType_getElem? _ id f halike _ _ hnode
    exact ⟨new, hnew, hsame, fun hne => hother fun heq => hne (heq ▸ rfl)⟩
  functions i function hfunction := ⟨function, hfunction, .refl function, fun _ => rfl⟩
  freshType i node hnode hi := by
    obtain ⟨old, hold, -⟩ := exists_modifyType halike hnode
    exact absurd (List.getElem?_eq_some_iff.mp hold).1 (not_lt.mpr hi)
  freshFunction i function hfunction hi :=
    absurd (List.getElem?_eq_some_iff.mp hfunction).1 (not_lt.mpr hi)
  has i := by
    rw [or_false]
    cases i with
    | type t => exact exists_congr fun i => denotes_modifyType halike
    | function owner ts =>
      refine exists_congr fun function => and_congr_right fun hfunction => and_congr_right fun _ => ?_
      exact hsound.inventory.function_arguments_iff (hsound.inventory.modifyType halike)
        (fun i u => (denotes_modifyType halike).mpr) hfunction
  mem_edges e := (or_false _).symm ▸ Iff.rfl

end Modify

/-! ### Types -/

section Members

variable {id : ℕ} {owner : DeclarationIdentity} {t : ClosedType} {source : List UInt8}

/-- The members that a node lists are those at the occurrences. -/
structure MembersAt (bodies : BodyTypes) (types : List Node) (owner : DeclarationIdentity)
    (t : ClosedType) (occurrences : List UInt32) (node : Node) : Prop where
  mem : ∀ m ∈ node.members, ∃ occurrence ∈ occurrences, ∃ u,
    bodies.closedSource owner t.arguments occurrence = some u ∧ Denotes types m u
  listed : ∀ occurrence ∈ occurrences, ∀ u,
    bodies.closedSource owner t.arguments occurrence = some u → ∃ m ∈ node.members, Denotes types m u
  value : ∀ occurrence ∈ occurrences, bodies.closedSource owner t.arguments occurrence = none →
    node.value = false

variable {before : List UInt32} {node : Node}

section

variable (hsound : Sound program builder) (hnode : builder.types[id]? = some node)
  (hkey : node.key = t.key)

include hsound hnode hkey

theorem member_spec {arguments : List ℕ} {occurrence : UInt32} (hargs : List.Forall₂ (Denotes builder.types) arguments t.arguments)
    (hmember : MemberAt program.toBodyTypes t owner occurrence)
    (hlisted : MembersAt program.toBodyTypes builder.types owner t before node)
    (h : builder.member program.toBodyTypes id ⟨owner, arguments⟩ source occurrence
      = .ok builder') :
    Extends program (· = .type id) (OccurrenceGains program.toBodyTypes owner t.arguments occurrence)
        (OccurrenceEdges program.toBodyTypes owner t.arguments source occurrence) builder builder'
      ∧ ∃ node', builder'.types[id]? = some node' ∧ node'.processed = node.processed
        ∧ MembersAt program.toBodyTypes builder'.types owner t (before ++ [occurrence]) node' := by
  have hfocus : ∀ job, job = Builder.Job.type id → builder.Interned job := by
    rintro _ rfl
    exact (List.getElem?_eq_some_iff.mp hnode).1
  obtain ⟨⟨next, result⟩, hsource, h⟩ := Checked.bind_eq_ok.mp h
  obtain ⟨hrel, hextends⟩ := source_spec hsound hargs hsource
  obtain ⟨node₁, hnode₁, -, hsame⟩ := hextends.types id node hnode
  obtain rfl : node₁ = node := hsame fun h => h
  have hwide : Extends program (· = .type id) _ _ _ _ := hextends.widen fun _ h => h.elim
  have hkept : ∀ {m : ℕ} {u : ClosedType}, Denotes builder.types m u → Denotes next.types m u :=
    hextends.denotes
  cases result with
  | some member =>
    obtain ⟨u, hclosed, hdenotes⟩ := exists_of_rel_left hrel
    cases h
    have halike : ∀ node : Node, node.Alike { node with members := node.members ++ [member] } :=
      fun node => ⟨rfl, rfl, rfl, rfl⟩
    have hmodify := @modifyType_extends _ next id _ hextends.sound halike
      fun node t hnode hkey hfalse => hextends.sound.values id node t hnode hkey hfalse
    obtain ⟨node', hnode', -, -, hself⟩ := @modifyType_getElem? _ id _ halike _ _ hnode₁
    obtain rfl := hself rfl
    refine ⟨(hwide.trans hfocus hmodify).congr (fun _ => or_false _ ▸ Iff.rfl)
      (fun _ => or_false _ ▸ Iff.rfl), _, hnode', rfl, ?_, ?_, ?_⟩
    · intro m hm
      obtain hm | hm := mem_append.mp hm
      · obtain ⟨occurrence, hin, v, hv, hmv⟩ := hlisted.mem m hm
        exact ⟨occurrence, mem_append_left _ hin, v, hv, hmodify.denotes (hkept hmv)⟩
      · rw [mem_singleton.mp hm]
        exact ⟨occurrence, mem_append_right _ (mem_singleton.mpr rfl), u, hclosed,
          hmodify.denotes hdenotes⟩
    · intro other hin v hv
      obtain hin | hin := mem_append.mp hin
      · obtain ⟨m, hm, hmv⟩ := hlisted.listed other hin v hv
        exact ⟨m, mem_append_left _ hm, hmodify.denotes (hkept hmv)⟩
      · rw [mem_singleton.mp hin, hclosed] at hv
        cases hv
        exact ⟨member, mem_append_right _ (mem_singleton.mpr rfl),
          hmodify.denotes hdenotes⟩
    · intro other hin hnone
      obtain hin | hin := mem_append.mp hin
      · exact hlisted.value other hin hnone
      · rw [mem_singleton.mp hin, hclosed] at hnone
        cases hnone
  | none =>
    have hclosed := eq_none_of_rel hrel
    cases h
    have halike : ∀ node : Node, node.Alike { node with value := false } :=
      fun node => ⟨rfl, rfl, rfl, rfl⟩
    have hmodify := @modifyType_extends _ next id _ hextends.sound halike
      fun node u hnode hkey' _ => by
        obtain rfl : t = u := hextends.sound.inventory.denotes_unique ⟨_, hnode₁, hkey⟩
          ⟨node, hnode, hkey'⟩
        exact ⟨t, .refl, owner, occurrence, hmember, hclosed⟩
    obtain ⟨node', hnode', -, -, hself⟩ := @modifyType_getElem? _ id _ halike _ _ hnode₁
    obtain rfl := hself rfl
    refine ⟨(hwide.trans hfocus hmodify).congr (fun _ => or_false _ ▸ Iff.rfl)
      (fun _ => or_false _ ▸ Iff.rfl), _, hnode', rfl, ?_, ?_, fun _ _ _ => rfl⟩
    · intro m hm
      obtain ⟨occurrence, hin, v, hv, hmv⟩ := hlisted.mem m hm
      exact ⟨occurrence, mem_append_left _ hin, v, hv, hmodify.denotes (hkept hmv)⟩
    · intro other hin v hv
      obtain hin | hin := mem_append.mp hin
      · obtain ⟨m, hm, hmv⟩ := hlisted.listed other hin v hv
        exact ⟨m, hm, hmodify.denotes (hkept hmv)⟩
      · rw [mem_singleton.mp hin, hclosed] at hv
        cases hv

/-- All members, in the order they are written. -/
theorem members_spec {arguments : List ℕ} {after : List UInt32} (hargs : List.Forall₂ (Denotes builder.types) arguments t.arguments)
    (hmembers : ∀ occurrence ∈ after, MemberAt program.toBodyTypes t owner occurrence)
    (hlisted : MembersAt program.toBodyTypes builder.types owner t before node)
    (h : after.foldlM (fun builder occurrence =>
      builder.member program.toBodyTypes id ⟨owner, arguments⟩ source occurrence) builder
        = .ok builder') :
    Extends program (· = .type id)
        (fun i => ∃ occurrence ∈ after,
          OccurrenceGains program.toBodyTypes owner t.arguments occurrence i)
        (fun e => ∃ occurrence ∈ after,
          OccurrenceEdges program.toBodyTypes owner t.arguments source occurrence e)
        builder builder'
      ∧ ∃ node', builder'.types[id]? = some node' ∧ node'.processed = node.processed
        ∧ MembersAt program.toBodyTypes builder'.types owner t (before ++ after) node' := by
  induction after generalizing builder node before with
  | nil =>
    cases h
    refine ⟨((Extends.refl hsound).congr (by simp) (by simp)).widen fun _ h => h.elim, node, hnode,
      rfl, ?_⟩
    rwa [append_nil]
  | cons occurrence after ih =>
    obtain ⟨hmember, hmembers⟩ := forall_mem_cons.mp hmembers
    rw [foldlM_cons] at h
    obtain ⟨next, hnext, hrest⟩ := Checked.bind_eq_ok.mp h
    obtain ⟨hfirst, node₁, hnode₁, hprocessed₁, hlisted₁⟩ :=
      member_spec hsound hnode hkey hargs hmember hlisted hnext
    have hkey₁ : node₁.key = t.key := by
      obtain ⟨other, hother, halike, -⟩ := hfirst.types id node hnode
      obtain rfl : other = node₁ := Option.some.inj (hother.symm.trans hnode₁)
      exact halike.key.trans hkey
    obtain ⟨hothers, node', hnode', hprocessed', hlisted'⟩ :=
      ih hfirst.sound hnode₁ hkey₁ (hfirst.forall₂_denotes hargs) hmembers hlisted₁ hrest
    have hfocus : ∀ job, job = Builder.Job.type id → builder.Interned job := by
      rintro _ rfl
      exact (List.getElem?_eq_some_iff.mp hnode).1
    refine ⟨(hfirst.trans hfocus hothers).congr (by simp) (by simp), node', hnode',
      hprocessed'.trans hprocessed₁, ?_⟩
    rwa [append_assoc] at hlisted'

end

/-- A node of a nominal type lists its members, and another node has none. -/
structure MembersExact (bodies : BodyTypes) (types : List Node) (t : ClosedType) (node : Node) :
    Prop where
  nominal : ∀ owner data, ownerOf t = some owner → bodies.data? owner = some data →
    MembersAt bodies types owner t data.kind.members node
  other : ownerOf t = none → node.members = []

/-- What the processing of an instance gains. -/
def Processed (bodies : BodyTypes) (i j : Instance) : Prop :=
  (∃ u, j = .type u ∧ Mentions bodies i u) ∨ ∃ owner arguments target targetArguments,
    i = .function owner arguments ∧ j = .function target targetArguments
      ∧ Calls bodies owner arguments target targetArguments

def InstanceEdges (bodies : BodyTypes) (i : Instance) (e : List UInt8 × List UInt8) : Prop :=
  ∃ j, DependsOn bodies i j ∧ e = (i.key, j.key)

theorem key_ne_nil (i : Instance) : i.key ≠ [] := by
  cases i with
  | type t => exact t.key_ne_nil
  | function owner ts => exact cons_ne_nil _ _

/-- Nothing is written in a type that has no declaration. -/
theorem not_mentions (howner : ownerOf t = none) (u : ClosedType) :
    ¬ Mentions bodies (.type t) u := by
  rintro ⟨_, _, _, hwrites, -⟩
  cases hwrites with
  | member hmember => cases howner.symm.trans hmember.nominal

variable {data : DataDeclaration}

/-- What the members of a nominal type gain. -/
theorem processed_nominal (howner : ownerOf t = some owner)
    (hdata : bodies.data? owner = some data) (i : Instance) :
    (∃ occurrence ∈ data.kind.members, OccurrenceGains bodies owner t.arguments occurrence i)
      ↔ Processed bodies (.type t) i := by
  constructor
  · rintro ⟨occurrence, hmem, view, hview, u, rfl, hpart⟩
    exact .inl ⟨u, rfl, owner, t.arguments, view, .member ⟨howner, data, hdata, hmem⟩ hview, hpart⟩
  · rintro (⟨u, rfl, _, _, view, hwrites, hpart⟩ | ⟨_, _, _, _, h, -⟩)
    · cases hwrites with
      | @member _ owner' occurrence _ hmember hview =>
        obtain rfl := Option.some.inj (howner.symm.trans hmember.nominal)
        obtain ⟨data', hdata', hmem⟩ := hmember.mem
        obtain rfl := Option.some.inj (hdata.symm.trans hdata')
        exact ⟨occurrence, hmem, view, hview, u, rfl, hpart⟩
    · cases h

/-- A type with a declaration is not builtin. -/
theorem not_builtin (howner : ownerOf t = some owner) :
    ¬ (t.constructor = .option ∨ t.constructor = .result) := by
  rintro (h | h) <;>
  · rw [ownerOf, h] at howner
    cases howner

theorem edges_nominal (howner : ownerOf t = some owner)
    (hdata : bodies.data? owner = some data) (e : List UInt8 × List UInt8) :
    (∃ occurrence ∈ data.kind.members,
        OccurrenceEdges bodies owner t.arguments t.key occurrence e)
      ↔ InstanceEdges bodies (.type t) e := by
  constructor
  · rintro ⟨occurrence, hmem, view, hview, u, hpart, -, g, hinner, hgeneric, rfl⟩
    exact ⟨_, .mention ⟨owner, t.arguments, view, .member ⟨howner, data, hdata, hmem⟩ hview, hpart⟩
      hinner hgeneric, rfl⟩
  · rintro ⟨j, hdepends, rfl⟩
    cases hdepends with
    | @mention _ u g hmention hinner hgeneric =>
      obtain ⟨_, _, view, hwrites, hpart⟩ := hmention
      cases hwrites with
      | @member _ owner' occurrence _ hmember hview =>
        obtain rfl := Option.some.inj (howner.symm.trans hmember.nominal)
        obtain ⟨data', hdata', hmem⟩ := hmember.mem
        obtain rfl := Option.some.inj (hdata.symm.trans hdata')
        exact ⟨occurrence, hmem, view, hview, u, hpart, t.key_ne_nil, g, hinner, hgeneric, rfl⟩
    | argument h => exact absurd h (not_builtin howner)

/-- The dependencies of a builtin type are those of its arguments. -/
theorem edges_builtin (h : t.constructor = .option ∨ t.constructor = .result)
    (e : List UInt8 × List UInt8) :
    (∃ u ∈ t.arguments, UseEdges t.key u e) ↔ InstanceEdges bodies (.type t) e := by
  have howner : ownerOf t = none := by
    rw [ownerOf]
    obtain h | h := h <;> rw [h]
  constructor
  · rintro ⟨u, hu, -, g, hinner, hgeneric, rfl⟩
    exact ⟨_, .argument h hu hinner hgeneric, rfl⟩
  · rintro ⟨j, hdepends, rfl⟩
    cases hdepends with
    | mention hmention => exact absurd hmention (not_mentions howner _)
    | @argument _ u g _ hu hinner hgeneric =>
      exact ⟨u, hu, t.key_ne_nil, g, hinner, hgeneric, rfl⟩

/-- A type that is neither nominal nor builtin depends on nothing. -/
theorem edges_other (howner : ownerOf t = none)
    (h : ¬ (t.constructor = .option ∨ t.constructor = .result)) (e : List UInt8 × List UInt8) :
    ¬ InstanceEdges bodies (.type t) e := by
  rintro ⟨j, hdepends, rfl⟩
  cases hdepends with
  | mention hmention => exact not_mentions howner _ hmention
  | argument hbuiltin => exact h hbuiltin

theorem processed_other (howner : ownerOf t = none) (i : Instance) :
    ¬ Processed bodies (.type t) i := by
  rintro (⟨u, rfl, hmention⟩ | ⟨_, _, _, _, h, -⟩)
  · exact not_mentions howner u hmention
  · cases h

theorem arguments_spec {arguments : List ℕ} {us : List ClosedType} (hsound : Sound program builder)
    (hargs : List.Forall₂ (Denotes builder.types) arguments us)
    (h : arguments.foldlM (fun builder argument =>
      builder.dependency program.toBodyTypes source argument none) builder = .ok builder') :
    Extends program noJob (fun _ => False) (fun e => ∃ u ∈ us, UseEdges source u e)
      builder builder' := by
  induction arguments generalizing builder us with
  | nil =>
    cases hargs
    cases h
    exact (Extends.refl hsound).congr (fun _ => Iff.rfl) (by simp)
  | cons argument arguments ih =>
    cases hargs with
    | cons hid hrest =>
      rw [foldlM_cons] at h
      obtain ⟨next, hnext, h⟩ := Checked.bind_eq_ok.mp h
      have hfirst := dependency_spec hsound hid hnext
      have hothers := ih hfirst.sound (hfirst.forall₂_denotes hrest) h
      exact (hfirst.trans no_focus hothers).congr (by simp) (by simp)

theorem builtin_iff {shape : TypeShape} {count : ℕ}
    (h : bodies.constructor shape count = some t.constructor) :
    (shape = .option ∨ shape = .result) ↔ (t.constructor = .option ∨ t.constructor = .result) := by
  have hcases := h
  unfold BodyTypes.constructor at hcases
  split at hcases
  case h_10 =>
    have hnot := not_builtin (ownerOf_of_constructor h)
    exact ⟨fun h => h.elim nofun nofun, fun h => absurd h hnot⟩
  case h_11 => cases hcases
  all_goals
    rw [← Option.some.inj hcases]
    simp

/-- Processing a type gains what it mentions, and lists its members. -/
theorem processType_spec (hsound : Sound program builder)
    (hnode : builder.types[id]? = some node) (hkey : node.key = t.key)
    (hmembers : node.members = []) (h : builder.processType program.toBodyTypes id = .ok builder') :
    Extends program (· = .type id) (Processed program.toBodyTypes (.type t))
        (InstanceEdges program.toBodyTypes (.type t)) builder builder'
      ∧ ∃ node', builder'.types[id]? = some node' ∧ node'.processed = true
        ∧ MembersExact program.toBodyTypes builder'.types t node' := by
  obtain ⟨other, hother, hok⟩ := hsound.inventory.denoted ⟨node, hnode, hkey⟩
  obtain rfl : other = node := Option.some.inj (hother.symm.trans hnode)
  have hfocus : ∀ job, job = Builder.Job.type id → builder.Interned job := by
    rintro _ rfl
    exact (List.getElem?_eq_some_iff.mp hnode).1
  have halike : ∀ node : Node, node.Alike { node with processed := true } :=
    fun node => ⟨rfl, rfl, rfl, rfl⟩
  have hmark := @modifyType_extends program builder id _ hsound halike
    fun node t hnode hkey hfalse => hsound.values id node t hnode hkey hfalse
  obtain ⟨node₁, hnode₁, -, -, hself⟩ := @modifyType_getElem? builder id _ halike _ _ hnode
  obtain rfl := hself rfl
  have hdenotes : List.Forall₂ (Denotes builder.types) other.arguments t.arguments :=
    hok.arguments.imp fun _ _ => Denotes.of_take
  have hargs := hmark.forall₂_denotes hdenotes
  have hbuiltin := builtin_iff hok.constructor
  -- a type without a declaration lists no members
  have hplain : ∀ b, Extends program noJob (fun _ => False)
      (InstanceEdges program.toBodyTypes (.type t)) (builder.modifyType id fun node =>
        { node with processed := true }) b → ownerOf t = none →
      Extends program (· = .type id) (Processed program.toBodyTypes (.type t))
          (InstanceEdges program.toBodyTypes (.type t)) builder b
        ∧ ∃ node', b.types[id]? = some node' ∧ node'.processed = true
          ∧ MembersExact program.toBodyTypes b.types t node' := by
    intro b hedges howner
    have hwide : Extends program (· = .type id) _ _ _ _ := hedges.widen fun _ h => h.elim
    obtain ⟨node', hnode', -, hsame⟩ := hedges.types id _ hnode₁
    obtain rfl := hsame fun h => h
    refine ⟨(hmark.trans hfocus hwide).congr (fun i => ?_) (fun e => by rw [false_or]), _, hnode', rfl,
      ⟨fun owner _ hsome => ?_, fun _ => hmembers⟩⟩
    · rw [or_false]
      exact iff_of_false (fun h => h) (processed_other howner i)
    · cases howner.symm.trans hsome
  unfold Builder.processType at h
  rw [hnode] at h
  dsimp only at h
  split at h
  case h_3 owner hshape =>
    have howner := ownerOf_of_constructor (t := t) (hshape ▸ hok.constructor)
    split at h
    · cases h
    · next data hdata =>
      have hstart : MembersAt program.toBodyTypes (builder.modifyType id fun node =>
          { node with processed := true }).types owner t [] { other with processed := true } :=
        { mem := fun m hm => nomatch (hmembers ▸ hm : m ∈ [])
          listed := nofun
          value := nofun }
      obtain ⟨hextends, node', hnode', hprocessed, hlisted⟩ := members_spec hmark.sound hnode₁ hkey
        hargs (fun occurrence hmem => ⟨howner, data, hdata, hmem⟩) hstart h
      refine ⟨(hmark.trans hfocus hextends).congr (fun i => ?_) (fun e => ?_), node', hnode',
        hprocessed, ⟨fun owner' data' howner' hdata' => ?_, fun hnone => ?_⟩⟩
      · rw [false_or, processed_nominal howner hdata]
      · rw [false_or, hkey, edges_nominal howner hdata]
      · obtain rfl := Option.some.inj (howner.symm.trans howner')
        obtain rfl := Option.some.inj (hdata.symm.trans hdata')
        exact hlisted
      · cases hnone.symm.trans howner
  case h_4 hoption hresult hnominal =>
    cases h
    have howner : ownerOf t = none := by
      cases howner : ownerOf t with
      | none => rfl
      | some owner => exact absurd (shape_of_ownerOf hok.constructor howner) (hnominal owner)
    have hother : ∀ e, ¬ InstanceEdges program.toBodyTypes (.type t) e :=
      edges_other howner fun h => (hbuiltin.mpr h).elim hoption hresult
    exact hplain _ ((Extends.refl hmark.sound).congr (fun _ => Iff.rfl)
      fun e => iff_of_false (fun h => h) (hother e)) howner
  all_goals
    next hshape =>
      have hconstructor := hbuiltin.mp (by rw [hshape]; simp)
      have howner : ownerOf t = none := by
        rw [ownerOf]
        obtain h | h := hconstructor <;> rw [h]
      refine hplain _ ((arguments_spec hmark.sound hargs h).congr (fun _ => Iff.rfl) fun e => ?_)
        howner
      rw [hkey, edges_builtin hconstructor]

end Members

end Zryna.Semantics.Instantiation
