import Mathlib.Data.List.FinRange
import Zryna.Source

/-!
# Raw aggregate type graphs

The untrusted claims that the aggregate layout verifier reads: a module inventory, a list of type
nodes that refer to one another by graph-local identity, and the stored program types. Identities
have to be dense, but their order means nothing: `Graph.renumber` is the graph under another
numbering of its nodes.
-/

namespace Zryna.Layout.Raw

open List

/-- One final-module inventory claim. -/
structure Module where
  id : ℕ
  sourceFile : FileId
  dataDeclarations : ℕ
deriving DecidableEq

/-- One source-ordered struct field. -/
structure Field where
  ordinal : ℕ
  ty : ℕ
deriving DecidableEq

/-- One source-ordered enum variant. -/
structure Variant where
  ordinal : ℕ
  payload : Option ℕ
deriving DecidableEq

/-- Stored type forms. A borrow is retained only to be rejected. -/
inductive TypeKind where
  | bool
  | i32
  | string
  | struct (module declaration : ℕ) (fields : List Field)
  | enum (module declaration : ℕ) (variants : List Variant)
  | fixedArray (element length : ℕ)
  | vec (element : ℕ)
  | shared (payload : ℕ)
  | weak (payload : ℕ)
  | borrow (referent : ℕ)
deriving DecidableEq

/-- One claimed graph node. -/
structure TypeNode where
  id : ℕ
  span : Option Span
  kind : TypeKind
deriving DecidableEq

/-- Complete raw aggregate type graph. -/
structure Graph where
  modules : List Module
  types : List TypeNode
  programRoots : List ℕ
deriving DecidableEq

namespace TypeKind

/-- The nodes a type refers to. -/
def allChildren : TypeKind → List ℕ
  | .struct _ _ fields => fields.map Field.ty
  | .enum _ _ variants => variants.filterMap Variant.payload
  | .fixedArray element _ | .vec element => [element]
  | .shared payload | .weak payload => [payload]
  | .borrow referent => [referent]
  | .bool | .i32 | .string => []

/-- The nodes a type stores inside itself. -/
def byValueChildren : TypeKind → List ℕ
  | .struct _ _ fields => fields.map Field.ty
  | .enum _ _ variants => variants.filterMap Variant.payload
  | .fixedArray element _ => [element]
  | _ => []

/-- Fields plus variants, and dependency edges. -/
def memberAndEdgeCount : TypeKind → ℕ × ℕ
  | .struct _ _ fields => (fields.length, fields.length)
  | .enum _ _ variants =>
    (variants.length, (variants.filter fun variant => variant.payload.isSome).length)
  | .fixedArray .. | .vec _ | .shared _ | .weak _ | .borrow _ => (0, 1)
  | .bool | .i32 | .string => (0, 0)

def nominalIdentity : TypeKind → Option (ℕ × ℕ)
  | .struct module declaration _ | .enum module declaration _ => some (module, declaration)
  | _ => none

/-- The kind under another numbering of the nodes. -/
def rename (f : ℕ → ℕ) : TypeKind → TypeKind
  | .struct module declaration fields =>
    .struct module declaration (fields.map fun field => ⟨field.ordinal, f field.ty⟩)
  | .enum module declaration variants =>
    .enum module declaration
      (variants.map fun variant => ⟨variant.ordinal, variant.payload.map f⟩)
  | .fixedArray element length => .fixedArray (f element) length
  | .vec element => .vec (f element)
  | .shared payload => .shared (f payload)
  | .weak payload => .weak (f payload)
  | .borrow referent => .borrow (f referent)
  | .bool => .bool
  | .i32 => .i32
  | .string => .string

variable (f g : ℕ → ℕ) (kind : TypeKind)

@[simp] theorem allChildren_rename : (kind.rename f).allChildren = kind.allChildren.map f := by
  cases kind <;> simp [rename, allChildren, Function.comp_def, filterMap_map,
    map_filterMap]

@[simp] theorem memberAndEdgeCount_rename :
    (kind.rename f).memberAndEdgeCount = kind.memberAndEdgeCount := by
  cases kind <;> simp [rename, memberAndEdgeCount, filter_map, Function.comp_def]

@[simp] theorem nominalIdentity_rename :
    (kind.rename f).nominalIdentity = kind.nominalIdentity := by
  cases kind <;> rfl

theorem rename_rename : (kind.rename f).rename g = kind.rename (g ∘ f) := by
  cases kind <;> simp [rename, Function.comp_def]

theorem rename_eq_self : kind.rename (fun id => id) = kind := by
  cases kind <;> simp [rename]

end TypeKind

/-- The node under another numbering. -/
def TypeNode.rename (f : ℕ → ℕ) (node : TypeNode) : TypeNode :=
  ⟨f node.id, node.span, node.kind.rename f⟩

section

variable (f : ℕ → ℕ) (node : TypeNode)

@[simp] theorem TypeNode.rename_id :
    (node.rename f).id = f node.id := rfl

@[simp] theorem TypeNode.rename_span :
    (node.rename f).span = node.span := rfl

@[simp] theorem TypeNode.rename_kind :
    (node.rename f).kind = node.kind.rename f := rfl

end

theorem TypeNode.rename_rename (f g : ℕ → ℕ) (node : TypeNode) :
    (node.rename f).rename g = node.rename (g ∘ f) := by
  simp [rename, TypeKind.rename_rename]

theorem TypeNode.rename_eq_self {f : ℕ → ℕ} (h : ∀ id, f id = id) (node : TypeNode) :
    node.rename f = node := by
  obtain rfl : f = fun id => id := funext h
  simp [rename, TypeKind.rename_eq_self]

namespace Graph

variable (graph : Graph) (σ : Equiv.Perm (Fin graph.types.length))

/-- A permutation of the identities in use, on all identities. -/
def relabel (id : ℕ) : ℕ :=
  if h : id < graph.types.length then σ ⟨id, h⟩ else id

/-- The graph with node `i` numbered `σ i`. -/
def renumber : Graph where
  modules := graph.modules
  types := List.ofFn fun i => (graph.types.get (σ.symm i)).rename (graph.relabel σ)
  programRoots := graph.programRoots.map (graph.relabel σ)

theorem relabel_lt_iff (i : ℕ) :
    graph.relabel σ i < graph.types.length ↔ i < graph.types.length := by
  unfold relabel
  split
  · next h => exact ⟨fun _ => h, fun _ => (σ ⟨i, h⟩).isLt⟩
  · exact Iff.rfl

theorem relabel_symm (i : ℕ) : graph.relabel σ.symm (graph.relabel σ i) = i := by
  by_cases h : i < graph.types.length
  · simp [relabel, h]
  · simp [relabel, h]

/-- `relabel` as a permutation of all identities. -/
def relabeling : Equiv.Perm ℕ :=
  ⟨graph.relabel σ, graph.relabel σ.symm, graph.relabel_symm σ, graph.relabel_symm σ.symm⟩

end Graph

/-- `graph'` is `graph` with node `i` numbered `σ i`. -/
structure Renumbers (σ : Equiv.Perm ℕ) (graph graph' : Graph) : Prop where
  modules : graph'.modules = graph.modules
  perm : graph'.types.Perm (graph.types.map (TypeNode.rename σ))
  lt_iff : ∀ i, σ i < graph.types.length ↔ i < graph.types.length
  types : ∀ i, graph'.types[σ i]? = graph.types[i]?.map (TypeNode.rename σ)
  programRoots : graph'.programRoots = graph.programRoots.map σ

theorem Graph.renumbers (graph : Graph) (σ : Equiv.Perm (Fin graph.types.length)) :
    Renumbers (graph.relabeling σ) graph (graph.renumber σ) where
  modules := rfl
  perm := by
    have hmap : graph.types.map (TypeNode.rename (graph.relabel σ))
        = List.ofFn fun i => (graph.types.get i).rename (graph.relabel σ) := by
      exact (ofFn_getElem_eq_map graph.types _).symm
    rw [show (⇑(graph.relabeling σ)) = graph.relabel σ from rfl, hmap]
    exact Equiv.Perm.ofFn_comp_perm σ.symm fun i =>
      (graph.types.get i).rename (graph.relabel σ)
  lt_iff := graph.relabel_lt_iff σ
  types := by
    intro i
    by_cases h : i < graph.types.length
    · simp [renumber, relabeling, relabel, h]
    · simp [renumber, relabeling, relabel, h]
  programRoots := rfl

namespace Renumbers

variable {σ : Equiv.Perm ℕ} {graph graph' : Graph} (h : Renumbers σ graph graph')
include h

theorem length_eq : graph'.types.length = graph.types.length := by
  rw [h.perm.length_eq, length_map]

/-- The first numbering is a renumbering of the second. -/
theorem symm : Renumbers σ.symm graph' graph where
  modules := h.modules.symm
  perm := by
    have hperm := h.perm.map (TypeNode.rename σ.symm)
    rw [map_map] at hperm
    have hid : TypeNode.rename σ.symm ∘ TypeNode.rename σ = id := by
      funext node
      exact (TypeNode.rename_rename σ σ.symm node).trans (TypeNode.rename_eq_self (by simp) node)
    rw [hid, map_id] at hperm
    exact hperm.symm
  lt_iff := by
    intro i
    rw [h.length_eq, ← h.lt_iff, Equiv.apply_symm_apply]
  types := by
    intro i
    have hi := h.types (σ.symm i)
    rw [Equiv.apply_symm_apply] at hi
    rw [hi, Option.map_map]
    cases graph.types[σ.symm i]? with
    | none => rfl
    | some node =>
      rw [Option.map_some, Option.some.injEq]
      exact ((TypeNode.rename_rename σ σ.symm node).trans
        (TypeNode.rename_eq_self (by simp) node)).symm
  programRoots := by
    rw [h.programRoots, map_map]
    simp

end Renumbers

end Zryna.Layout.Raw
