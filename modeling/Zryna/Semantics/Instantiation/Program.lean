import Zryna.Ir.Generic.Keys
import Zryna.Source.Untrusted

/-!
# Checked generic programs

What instantiation reads of a project whose original bodies have been checked: the declarations,
the types that are written in them, and the type of each expression, as symbolic views over the
parameters of the enclosing declaration.

`BodyTypes` is the data. `CheckedProgram` adds what the earlier phases have established of it.
-/

namespace Zryna.Semantics.Instantiation

open Zryna.Ir.Generic

inductive DeclarationKind where
  | struct
  | enum
  | function
deriving DecidableEq

/-- Original declaration identity, with separate source indices of functions and of data. -/
structure DeclarationIdentity where
  module : UInt32
  kind : DeclarationKind
  sourceIndex : UInt32
deriving DecidableEq

/-- The module and the index, as lanes of a key. -/
def DeclarationIdentity.lanes (owner : DeclarationIdentity) : Declaration :=
  (owner.module, owner.sourceIndex)

/-- Type parameter identity confined to one declaration, which has at most two. -/
structure TypeParameterIdentity where
  declaration : DeclarationIdentity
  index : Fin 2
deriving DecidableEq

/-- The length of an array type that is written in verified syntax. -/
structure ArrayLength where
  value : UInt32
  bounded : value.toNat ≤ Keys.maxArrayLength
deriving DecidableEq

/-- The head shape of a symbolic source type. -/
inductive TypeShape where
  | bool
  | i32
  | string
  | unit
  | parameter (parameter : TypeParameterIdentity)
  | nominal (owner : DeclarationIdentity)
  | option
  | result
  | vec
  | shared
  | weak
  | borrow
  | borrowMut
  | fixedArray (length : ArrayLength)
  | function (owner : DeclarationIdentity)
deriving DecidableEq

/-- A symbolic type with the spans it is reported at: its own, and that of its head. -/
inductive TypeView where
  | node (shape : TypeShape) (originalSpan headSpan : Option UntrustedSpan) (count : ℕ)
    (children : Fin count → TypeView)

namespace TypeView

def shape : TypeView → TypeShape
  | .node shape _ _ _ _ => shape

def originalSpan : TypeView → Option UntrustedSpan
  | .node _ span _ _ _ => span

inductive Within : TypeView → TypeView → Prop
  | self (view : TypeView) : Within view view
  | child {view : TypeView} {shape : TypeShape} {originalSpan headSpan : Option UntrustedSpan}
      {count : ℕ} {children : Fin count → TypeView} (i : Fin count)
      (h : Within view (children i)) :
      Within view (.node shape originalSpan headSpan count children)

end TypeView

/-- Fields by the types they are written with, or variants by those of their payloads. -/
inductive DataKind where
  | struct (fields : List UInt32)
  | enum (variants : List (Option UInt32))
deriving DecidableEq

/-- The types of the members. -/
def DataKind.members : DataKind → List UInt32
  | .struct fields => fields
  | .enum variants => variants.filterMap id

def DataKind.declarationKind : DataKind → DeclarationKind
  | .struct _ => .struct
  | .enum _ => .enum

structure DataDeclaration where
  name : String
  typeParameters : ℕ
  kind : DataKind

inductive Statement where
  | localDeclaration (typeSyntax : UInt32)
  | other

structure Call where
  callee : String
  calleeSpan : UntrustedSpan
  typeArguments : Option (List UInt32)

/-- An expression with its checked type. A call of an intrinsic is classified before. -/
structure Expression where
  span : UntrustedSpan
  type : Option TypeView
  call : Option Call
  intrinsic : Bool

structure FunctionDeclaration where
  name : String
  typeParameters : ℕ
  parameters : List UInt32
  resultType : UInt32
  statements : List Statement
  expressions : List Expression

structure Import where
  localName : String
  target : DeclarationIdentity

/-- A type that is written in a declaration. An invalid use has no view. -/
structure SourceRecord where
  owner : DeclarationIdentity
  view : Option TypeView
  span : UntrustedSpan
  argumentOccurrence : Bool

structure Module where
  dataDeclarations : List DataDeclaration
  functions : List FunctionDeclaration
  imports : List Import
  sources : List SourceRecord

/-- The identity of a data declaration by its place. -/
def dataIdentity (module index : ℕ) (data : DataDeclaration) : DeclarationIdentity :=
  ⟨.ofNat module, data.kind.declarationKind, .ofNat index⟩

/-- The identity of a function by its place. -/
def functionIdentity (module index : ℕ) : DeclarationIdentity :=
  ⟨.ofNat module, .function, .ofNat index⟩

/-- Original-source symbolic types of a project. -/
structure BodyTypes where
  modules : List Module

namespace BodyTypes

variable (bodies : BodyTypes)

def module? (index : UInt32) : Option Module := bodies.modules[index.toNat]?

section

variable (owner : DeclarationIdentity)

def data? : Option DataDeclaration := do
  let module ← bodies.module? owner.module
  let data ← module.dataDeclarations[owner.sourceIndex.toNat]?
  if data.kind.declarationKind = owner.kind then some data else none

def function? : Option FunctionDeclaration := do
  let module ← bodies.module? owner.module
  if owner.kind = .function then module.functions[owner.sourceIndex.toNat]? else none

def typeParameters? : Option ℕ :=
  match owner.kind with
  | .struct | .enum => (bodies.data? owner).map DataDeclaration.typeParameters
  | .function => (bodies.function? owner).map FunctionDeclaration.typeParameters

variable (occurrence : UInt32)

def record? : Option SourceRecord := do
  let module ← bodies.module? owner.module
  module.sources[occurrence.toNat]?

def sourceType : Option TypeView := do
  let record ← bodies.record? owner occurrence
  if record.owner = owner then record.view else none

/-- The types that are written in a module, with their declarations. -/
def sourceOwners (module : Module) : List (DeclarationIdentity × UInt32) :=
  (module.sources.mapIdx fun i record => (record, UInt32.ofNat i)).filterMap fun row =>
    if row.1.view.isSome then some (row.1.owner, row.2) else none

def dataIdentities : List DeclarationIdentity :=
  (bodies.modules.mapIdx fun m module =>
    module.dataDeclarations.mapIdx fun i data => dataIdentity m i data).flatten

/-- Whether a type is written as a type argument in a declaration. -/
def sourceArgument : Bool :=
  match bodies.record? owner occurrence with
  | some record => record.owner = owner && record.argumentOccurrence
  | none => false

end

def declarations (index : ℕ) (module : Module) : List (String × DeclarationIdentity) :=
  (module.dataDeclarations.mapIdx fun i data => (data.name, dataIdentity index i data))
    ++ module.functions.mapIdx fun i function => (function.name, functionIdentity index i)

/-- What a name stands for in the module of a declaration. -/
def target (owner : DeclarationIdentity) (name : String) : Option DeclarationIdentity := do
  let module ← bodies.module? owner.module
  match (declarations owner.module.toNat module).find? fun declaration => declaration.1 = name with
  | some declaration => some declaration.2
  | none => (module.imports.find? fun row => row.localName = name).map Import.target

/-- The number of arguments of a type of a shape. -/
def arity (shape : TypeShape) : Option ℕ :=
  match shape with
  | .bool | .i32 | .string | .unit | .parameter _ | .function _ => some 0
  | .option | .vec | .shared | .weak | .borrow | .borrowMut | .fixedArray _ => some 1
  | .result => some 2
  | .nominal owner => (bodies.data? owner).map DataDeclaration.typeParameters

/-- Every head of a view has as many arguments as it takes. -/
def ViewChecked : TypeView → Prop
  | .node shape _ _ count children =>
    bodies.arity shape = some count ∧ ∀ i, ViewChecked (children i)

/-- A declaration of a module, as the earlier phases number it. -/
def Declared (owner : DeclarationIdentity) : Prop := (bodies.typeParameters? owner).isSome

variable {bodies}

theorem le_of_typeParameters? {bound : ℕ}
    (hdata : ∀ module ∈ bodies.modules, ∀ data ∈ module.dataDeclarations,
      data.typeParameters ≤ bound)
    (hfunctions : ∀ module ∈ bodies.modules, ∀ function ∈ module.functions,
      function.typeParameters ≤ bound) (owner : DeclarationIdentity) (count : ℕ)
    (h : bodies.typeParameters? owner = some count) : count ≤ bound := by
  simp only [typeParameters?, data?, function?, module?, Option.bind_eq_bind] at h
  split at h
  all_goals
    obtain ⟨declaration, hget, rfl⟩ := Option.map_eq_some_iff.mp h
    simp only [Option.bind_eq_some_iff, Option.ite_none_right_eq_some] at hget
    obtain ⟨module, hmodule, hget⟩ := hget
  case h_3 =>
    exact hfunctions module (List.mem_of_getElem? hmodule) declaration (List.mem_of_getElem? hget.2)
  all_goals
    obtain ⟨_, hdeclaration, -, ⟨⟩⟩ := hget
    exact hdata module (List.mem_of_getElem? hmodule) declaration
      (List.mem_of_getElem? hdeclaration)

end BodyTypes

/-- What the earlier phases have established of a project: indices fit their lanes, declarations
have at most two type parameters, the written types and the types of expressions are complete,
each written type belongs to a declaration of its module, those of a data declaration are parts of
the types of its members, and a call names a function with as many type arguments as it takes. -/
structure CheckedProgram extends BodyTypes where
  modules_lt : modules.length < 2 ^ 32
  data_lt : ∀ module ∈ modules, module.dataDeclarations.length < 2 ^ 32
  functions_lt : ∀ module ∈ modules, module.functions.length < 2 ^ 32
  sources_lt : ∀ module ∈ modules, module.sources.length < 2 ^ 32
  typeParameters_le : ∀ owner count, toBodyTypes.typeParameters? owner = some count → count ≤ 2
  sources_checked : ∀ module ∈ modules, ∀ record ∈ module.sources, ∀ view,
    record.view = some view → toBodyTypes.ViewChecked view
  expressions_checked : ∀ module ∈ modules, ∀ function ∈ module.functions,
    ∀ expression ∈ function.expressions, ∀ view,
      expression.type = some view → toBodyTypes.ViewChecked view
  owners_declared : ∀ (index : ℕ) (module : Module), modules[index]? = some module →
    ∀ record ∈ module.sources,
      toBodyTypes.Declared record.owner ∧ record.owner.module = .ofNat index
  data_sources : ∀ module ∈ modules, ∀ record ∈ module.sources, ∀ data view,
    toBodyTypes.data? record.owner = some data → record.view = some view →
      ∃ occurrence ∈ data.kind.members, ∃ member,
        toBodyTypes.sourceType record.owner occurrence = some member ∧ view.Within member
  calls_checked : ∀ owner function, toBodyTypes.function? owner = some function →
    ∀ expression ∈ function.expressions, ∀ call, expression.call = some call →
      expression.intrinsic = false → ∀ target, toBodyTypes.target owner call.callee = some target →
        target.kind = .function
          ∧ toBodyTypes.typeParameters? target = some (call.typeArguments.getD []).length

end Zryna.Semantics.Instantiation
