import Zryna.Semantics.Instantiation.Reached

/-!
# What the operations of the builder add

Every operation of discovery adds instances and edges to the builder and keeps what is there.
`Extends focus gained edges` says which: the instances `gained` and the edges `edges`, and no node
outside `focus` changes. Operations compose by `Extends.trans`, and a run over a list by
`Extends.foldlM`.
-/

namespace Zryna.Semantics.Instantiation

open Zryna.Ir.Generic Relation List

variable {program : CheckedProgram} {builder builder' builder'' : Builder}

/-! ### The invariant -/

/-- An instance has been interned. -/
def Builder.Has (builder : Builder) : Instance → Prop
  | .type t => ∃ id, Denotes builder.types id t
  | .function owner arguments => ∃ function ∈ builder.functions, function.owner = owner
      ∧ List.Forall₂ (Denotes builder.types) function.arguments arguments

/-- The inventory, and the reasons for types that are not values. -/
structure Sound (program : CheckedProgram) (builder : Builder) : Prop where
  inventory : Inventory program.toBodyTypes builder
  values : ∀ (id : ℕ) (node : Node) t, builder.types[id]? = some node → node.key = t.key → node.value = false →
    Unstorable program.toBodyTypes t
  bounds : ∀ owner t, builder.bounds.value owner = .ok false → ownerOf t = some owner →
    Unstorable program.toBodyTypes t

/-- What never changes in a node. -/
structure Node.Alike (node node' : Node) : Prop where
  key : node'.key = node.key
  shape : node'.shape = node.shape
  arguments : node'.arguments = node.arguments
  depth : node'.depth = node.depth

/-- What never changes in a function. -/
structure Function.Alike (function function' : Function) : Prop where
  key : function'.key = function.key
  owner : function'.owner = function.owner
  arguments : function'.arguments = function.arguments
  generic : function'.generic = function.generic

theorem Node.Alike.refl (node : Node) : node.Alike node := ⟨rfl, rfl, rfl, rfl⟩

theorem Node.Alike.trans {a b c : Node} (h : a.Alike b) (h' : b.Alike c) : a.Alike c :=
  ⟨h'.key.trans h.key, h'.shape.trans h.shape, h'.arguments.trans h.arguments,
    h'.depth.trans h.depth⟩

theorem Function.Alike.refl (function : Function) : function.Alike function := ⟨rfl, rfl, rfl, rfl⟩

theorem Function.Alike.trans {a b c : Function} (h : a.Alike b) (h' : b.Alike c) : a.Alike c :=
  ⟨h'.key.trans h.key, h'.owner.trans h.owner, h'.arguments.trans h.arguments,
    h'.generic.trans h.generic⟩

theorem Inventory.denotes_unique {bodies : BodyTypes} (hinv : Inventory bodies builder) {id : ℕ}
    {t u : ClosedType} (ht : Denotes builder.types id t) (hu : Denotes builder.types id u) :
    t = u := by
  obtain ⟨node, hnode, hok⟩ := hinv.denoted ht
  obtain ⟨other, hother, hkey⟩ := hu
  obtain rfl : node = other := Option.some.inj (hnode.symm.trans hother)
  exact ClosedType.key_injective (lt_of_le_of_lt hok.key_le (by decide)) (hok.key.symm.trans hkey)

theorem Inventory.forall₂_unique {bodies : BodyTypes} (hinv : Inventory bodies builder)
    {ids : List ℕ} {ts us : List ClosedType} (ht : List.Forall₂ (Denotes builder.types) ids ts)
    (hu : List.Forall₂ (Denotes builder.types) ids us) : ts = us := by
  induction ht generalizing us with
  | nil => cases hu; rfl
  | cons hid _ ih =>
    cases hu with
    | cons hid' hrest => rw [hinv.denotes_unique hid hid', ih hrest]

/-! ### Extensions -/

/-- The builder gains instances and edges. Nodes outside `focus` keep everything, and those in
`focus` their keys and arguments. -/
structure Extends (program : CheckedProgram) (focus : Builder.Job → Prop) (gained : Instance → Prop)
    (edges : List UInt8 × List UInt8 → Prop) (builder builder' : Builder) : Prop where
  sound : Sound program builder'
  types : ∀ (id : ℕ) (node : Node), builder.types[id]? = some node → ∃ node', builder'.types[id]? = some node'
    ∧ node.Alike node' ∧ (¬ focus (.type id) → node' = node)
  functions : ∀ (id : ℕ) (function : Function), builder.functions[id]? = some function →
    ∃ function', builder'.functions[id]? = some function' ∧ function.Alike function'
      ∧ (¬ focus (.function id) → function' = function)
  freshType : ∀ (id : ℕ) (node : Node), builder'.types[id]? = some node → builder.types.length ≤ id →
    node.processed = false ∧ node.members = []
  freshFunction : ∀ (id : ℕ) (function : Function), builder'.functions[id]? = some function →
    builder.functions.length ≤ id → function.processed = false
  has : ∀ i, builder'.Has i ↔ builder.Has i ∨ gained i
  mem_edges : ∀ e, e ∈ builder'.edges ↔ e ∈ builder.edges ∨ edges e

def noJob : Builder.Job → Prop := fun _ => False

def Builder.Interned (builder : Builder) : Builder.Job → Prop
  | .type id => id < builder.types.length
  | .function id => id < builder.functions.length

/-- The denotation, of whatever has been interned. -/
theorem denotes_of_alike {types types' : List Node} {id : ℕ} {t : ClosedType}
    (h : ∀ (id : ℕ) (node : Node), types[id]? = some node → ∃ node', types'[id]? = some node' ∧ node.Alike node')
    (ht : Denotes types id t) : Denotes types' id t :=
  ht.mono fun node hnode => by
    obtain ⟨node', hnode', halike⟩ := h id node hnode
    exact ⟨node', hnode', halike.key⟩

namespace Extends

variable {focus : Builder.Job → Prop} {gained gained' : Instance → Prop}
  {edges edges' : List UInt8 × List UInt8 → Prop} {id : ℕ} {t : ClosedType}

section

variable (h : Extends program focus gained edges builder builder')

include h

theorem denotes (ht : Denotes builder.types id t) : Denotes builder'.types id t :=
  denotes_of_alike (fun id node hnode => by
    obtain ⟨node', hnode', halike, -⟩ := h.types id node hnode
    exact ⟨node', hnode', halike⟩) ht

theorem forall₂_denotes {ids : List ℕ} {ts : List ClosedType}
    (ht : List.Forall₂ (Denotes builder.types) ids ts) :
    List.Forall₂ (Denotes builder'.types) ids ts := ht.imp fun _ _ => h.denotes

theorem length_types : builder.types.length ≤ builder'.types.length := by
  by_contra hlt
  obtain ⟨node, hnode⟩ : ∃ node, builder.types[builder'.types.length]? = some node :=
    ⟨_, getElem?_eq_getElem (not_le.mp hlt)⟩
  obtain ⟨_, hnode', -⟩ := h.types _ node hnode
  exact absurd (List.getElem?_eq_some_iff.mp hnode').1 (lt_irrefl _)

theorem length_functions : builder.functions.length ≤ builder'.functions.length := by
  by_contra hlt
  obtain ⟨function, hfunction⟩ :
      ∃ function, builder.functions[builder'.functions.length]? = some function :=
    ⟨_, getElem?_eq_getElem (not_le.mp hlt)⟩
  obtain ⟨_, hfunction', -⟩ := h.functions _ function hfunction
  exact absurd (List.getElem?_eq_some_iff.mp hfunction').1 (lt_irrefl _)

/-- What is gained and added may be said in other words. -/
theorem congr (hgained : ∀ i, gained i ↔ gained' i) (hedges : ∀ e, edges e ↔ edges' e) :
    Extends program focus gained' edges' builder builder' :=
  { h with
    has := fun i => by rw [h.has, hgained]
    mem_edges := fun e => by rw [h.mem_edges, hedges] }

theorem widen {focus' : Builder.Job → Prop} (hfocus : ∀ job, focus job → focus' job) :
    Extends program focus' gained edges builder builder' :=
  { h with
    types := fun id node hnode => by
      obtain ⟨node', hnode', halike, hsame⟩ := h.types id node hnode
      exact ⟨node', hnode', halike, fun hnot => hsame fun hin => hnot (hfocus _ hin)⟩
    functions := fun id function hfunction => by
      obtain ⟨function', hfunction', halike, hsame⟩ := h.functions id function hfunction
      exact ⟨function', hfunction', halike, fun hnot => hsame fun hin => hnot (hfocus _ hin)⟩ }

end

/-- Operations compose. The focus is on what was interned before them. -/
theorem trans (hfocus : ∀ job, focus job → builder.Interned job)
    (h : Extends program focus gained edges builder builder')
    (h' : Extends program focus gained' edges' builder' builder'') :
    Extends program focus (fun i => gained i ∨ gained' i) (fun e => edges e ∨ edges' e)
      builder builder'' where
  sound := h'.sound
  types id node hnode := by
    obtain ⟨node', hnode', halike, hsame⟩ := h.types id node hnode
    obtain ⟨node'', hnode'', halike', hsame'⟩ := h'.types id node' hnode'
    exact ⟨node'', hnode'', halike.trans halike', fun hnot => (hsame' hnot).trans (hsame hnot)⟩
  functions id function hfunction := by
    obtain ⟨function', hfunction', halike, hsame⟩ := h.functions id function hfunction
    obtain ⟨function'', hfunction'', halike', hsame'⟩ := h'.functions id function' hfunction'
    exact ⟨function'', hfunction'', halike.trans halike',
      fun hnot => (hsame' hnot).trans (hsame hnot)⟩
  freshType id node hnode hid := by
    by_cases hlt : id < builder'.types.length
    · obtain ⟨node', hnode', -, hsame⟩ := h'.types id _ (getElem?_eq_getElem hlt)
      obtain rfl : node' = node := Option.some.inj (hnode'.symm.trans hnode)
      rw [hsame fun hin => absurd (hfocus _ hin) (not_lt.mpr hid)]
      exact h.freshType id _ (getElem?_eq_getElem hlt) hid
    · exact h'.freshType id node hnode (not_lt.mp hlt)
  freshFunction id function hfunction hid := by
    by_cases hlt : id < builder'.functions.length
    · obtain ⟨function', hfunction', -, hsame⟩ :=
        h'.functions id _ (getElem?_eq_getElem hlt)
      obtain rfl : function' = function := Option.some.inj (hfunction'.symm.trans hfunction)
      rw [hsame fun hin => absurd (hfocus _ hin) (not_lt.mpr hid)]
      exact h.freshFunction id _ (getElem?_eq_getElem hlt) hid
    · exact h'.freshFunction id function hfunction (not_lt.mp hlt)
  has i := by rw [h'.has, h.has, or_assoc]
  mem_edges e := by rw [h'.mem_edges, h.mem_edges, or_assoc]

/-- Nothing but edges, uses, errors and the graph of expansion differs. -/
theorem of_edges {edges : List UInt8 × List UInt8 → Prop} (hsound : Sound program builder)
    (htypes : builder'.types = builder.types) (htypeOrder : builder'.typeOrder = builder.typeOrder)
    (hfunctions : builder'.functions = builder.functions)
    (hfunctionOrder : builder'.functionOrder = builder.functionOrder)
    (hbounds : builder'.bounds = builder.bounds) (hsorted : SortedSlice.Sorted toLex builder'.edges)
    (hmem : ∀ e, e ∈ builder'.edges ↔ e ∈ builder.edges ∨ edges e) :
    Extends program noJob (fun _ => False) edges builder builder' := by
  obtain ⟨types, typeOrder, functions, functionOrder, all, _, _, _, bounds, _, _, _⟩ := builder'
  obtain rfl : types = builder.types := htypes
  obtain rfl : typeOrder = builder.typeOrder := htypeOrder
  obtain rfl : functions = builder.functions := hfunctions
  obtain rfl : functionOrder = builder.functionOrder := hfunctionOrder
  obtain rfl : bounds = builder.bounds := hbounds
  have hinv := hsound.inventory
  exact
    { sound := ⟨⟨hinv.types, hinv.functions, hinv.typeOrder_sorted, hinv.mem_typeOrder,
        hinv.functionOrder_sorted, hinv.mem_functionOrder, hsorted⟩, hsound.values, hsound.bounds⟩
      types := fun id node hnode => ⟨node, hnode, .refl node, fun _ => rfl⟩
      functions := fun id function hfunction =>
        ⟨function, hfunction, .refl function, fun _ => rfl⟩
      freshType := fun id node hnode hid =>
        absurd (List.getElem?_eq_some_iff.mp hnode).1 (not_lt.mpr hid)
      freshFunction := fun id function hfunction hid =>
        absurd (List.getElem?_eq_some_iff.mp hfunction).1 (not_lt.mpr hid)
      has := fun i => by cases i <;> exact (or_false _).symm ▸ Iff.rfl
      mem_edges := hmem }

theorem of_same (hsound : Sound program builder) (htypes : builder'.types = builder.types)
    (htypeOrder : builder'.typeOrder = builder.typeOrder)
    (hfunctions : builder'.functions = builder.functions)
    (hfunctionOrder : builder'.functionOrder = builder.functionOrder)
    (hedges : builder'.edges = builder.edges) (hbounds : builder'.bounds = builder.bounds) :
    Extends program noJob (fun _ => False) (fun _ => False) builder builder' :=
  of_edges hsound htypes htypeOrder hfunctions hfunctionOrder hbounds
    (hedges ▸ hsound.inventory.edges_sorted) fun _ => hedges ▸ (or_false _).symm ▸ Iff.rfl

/-- What has been interned already may be said to be gained. -/
theorem absorb (h : Extends program focus gained edges builder builder')
    (hhas : ∀ i, gained' i → builder'.Has i) :
    Extends program focus (fun i => gained i ∨ gained' i) edges builder builder' :=
  { h with
    has := fun i => by
      rw [h.has, or_left_comm, ← or_assoc]
      refine ⟨fun hi => .inl hi.symm, fun hi => hi.elim Or.symm fun hi => ?_⟩
      exact (h.has i).mp (hhas i hi) }

theorem refl (hsound : Sound program builder) :
    Extends program noJob (fun _ => False) (fun _ => False) builder builder :=
  of_same hsound rfl rfl rfl rfl rfl rfl

/-- A run over a list, whose steps each add what belongs to their element. -/
theorem foldlM {α : Type} {xs : List α} {step : Builder → α → Except InstantiationFailure Builder}
    {gains : α → Instance → Prop} {adds : α → List UInt8 × List UInt8 → Prop}
    {P : Builder → Prop} (hfocus : ∀ job, focus job → builder.Interned job)
    (hP : ∀ b b' g e, P b → Extends program focus g e b b' → P b')
    (hstep : ∀ x ∈ xs, ∀ b b', Sound program b → P b → (∀ job, focus job → b.Interned job) →
      step b x = .ok b' → Extends program focus (gains x) (adds x) b b')
    (hsound : Sound program builder) (hstart : P builder) (h : xs.foldlM step builder = .ok builder') :
    Extends program focus (fun i => ∃ x ∈ xs, gains x i) (fun e => ∃ x ∈ xs, adds x e)
      builder builder' := by
  induction xs generalizing builder with
  | nil =>
    obtain rfl : builder = builder' := Except.ok.inj h
    exact ((refl hsound).congr (by simp) (by simp)).widen fun _ hno => hno.elim
  | cons x xs ih =>
    rw [foldlM_cons, Checked.bind_eq_ok] at h
    obtain ⟨next, hnext, hrest⟩ := h
    have hfirst := hstep x mem_cons_self builder next hsound hstart hfocus hnext
    have hfocus' : ∀ job, focus job → next.Interned job := fun job hin => by
      cases job with
      | type id => exact lt_of_lt_of_le (hfocus _ hin) hfirst.length_types
      | function id => exact lt_of_lt_of_le (hfocus _ hin) hfirst.length_functions
    have hothers := ih hfocus' (fun y hy => hstep y (mem_cons_of_mem _ hy)) hfirst.sound
      (hP _ _ _ _ hstart hfirst) hrest
    exact (hfirst.trans hfocus hothers).congr (by simp) (by simp)

end Extends

end Zryna.Semantics.Instantiation
