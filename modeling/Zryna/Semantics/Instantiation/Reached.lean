import Zryna.Semantics.Instantiation.Discovery
import Zryna.Semantics.Instantiation.Interning

/-!
# The closed instances of a program

What discovery is to find, apart from the builder that finds it. An instance is a closed type, or a
function over closed types. Its declaration writes symbolic types, and closing them over the type
arguments of the instance gives the closed types that it mentions; the calls of a function give
further functions.

`Reached start` is the least set of instances that contains `start`, every nongeneric declaration
and every closed type that is written, and all that its members mention and call. A type is
unstorable when some member, reached from it through arguments and members, is not a closed type.
-/

namespace Zryna.Ir.Generic

/-- The constructors of builtin and declared types that are closed instances. -/
def TypeConstructor.generic : TypeConstructor → Bool
  | .genericStruct _ _ | .genericEnum _ _ | .option | .result => true
  | _ => false

inductive ClosedType.Subterm : ClosedType → ClosedType → Prop
  | refl (type : ClosedType) : Subterm type type
  | argument {inner argument type : ClosedType} (h : argument ∈ type.arguments)
      (hinner : Subterm inner argument) : Subterm inner type

end Zryna.Ir.Generic

namespace Zryna.Semantics.Instantiation

open Zryna.Ir.Generic Relation

/-! ### Substitution -/

/-- What a view closes to where the parameters of `owner` stand for `arguments`. -/
def TypeView.closed (bodies : BodyTypes) (owner : DeclarationIdentity)
    (arguments : List ClosedType) : TypeView → Option ClosedType
  | .node shape _ _ count children =>
    match shape with
    | .parameter parameter =>
      if parameter.declaration = owner then arguments[parameter.index.val]? else none
    | shape => do
      let ts ← (List.ofFn fun i => (children i).closed bodies owner arguments).mapM id
      let c ← bodies.constructor shape count
      if h : ts.length = c.count.toNat then some (.ofArguments c ts h) else none

def BodyTypes.closedSource (bodies : BodyTypes) (owner : DeclarationIdentity)
    (arguments : List ClosedType) (occurrence : UInt32) : Option ClosedType :=
  (bodies.sourceType owner occurrence).bind (TypeView.closed bodies owner arguments)

def ClosedPart (bodies : BodyTypes) (owner : DeclarationIdentity) (arguments : List ClosedType)
    (view : TypeView) (t : ClosedType) : Prop :=
  ∃ part : TypeView, part.Within view ∧ part.closed bodies owner arguments = some t

/-! ### Instances -/

inductive Instance where
  | type (t : ClosedType)
  | function (owner : DeclarationIdentity) (arguments : List ClosedType)

namespace Instance

def key : Instance → List UInt8
  | .type t => t.key
  | .function owner arguments =>
    encodeKey (if arguments.length = 0 then 0x41 else 0x40)
      ([owner.module, owner.sourceIndex]
        ++ if arguments.length = 0 then [] else [UInt32.ofNat arguments.length])
      (arguments.map ClosedType.key)

/-- Instances of generic declarations, and the builtin types `Option` and `Result`. -/
def Generic : Instance → Prop
  | .type t => t.constructor.generic = true
  | .function _ arguments => arguments ≠ []

end Instance

def ownerOf (t : ClosedType) : Option DeclarationIdentity :=
  match t.constructor with
  | .struct declaration | .genericStruct declaration _ =>
    some ⟨declaration.1, .struct, declaration.2⟩
  | .enum declaration | .genericEnum declaration _ => some ⟨declaration.1, .enum, declaration.2⟩
  | _ => none

/-- The type arguments that are written in a call of a function. -/
def Expression.typeArguments (expression : Expression) : List UInt32 :=
  match expression.call with
  | some call => if expression.intrinsic then [] else call.typeArguments.getD []
  | none => []

variable (bodies : BodyTypes)

/-- A member of a nominal type is written at an occurrence of its declaration. -/
structure MemberAt (t : ClosedType) (owner : DeclarationIdentity) (occurrence : UInt32) : Prop where
  nominal : ownerOf t = some owner
  mem : ∃ data, bodies.data? owner = some data ∧ occurrence ∈ data.kind.members

/-- The views that an instance closes: those of its members, or of its signature, its locals, its
expressions and the type arguments of its calls. -/
inductive Writes : Instance → DeclarationIdentity → List ClosedType → TypeView → Prop
  | member {t : ClosedType} {owner : DeclarationIdentity} {occurrence : UInt32} {view : TypeView}
      (hmember : MemberAt bodies t owner occurrence)
      (hview : bodies.sourceType owner occurrence = some view) :
      Writes (.type t) owner t.arguments view
  | written {owner : DeclarationIdentity} {arguments : List ClosedType}
      {function : FunctionDeclaration} {occurrence : UInt32} {view : TypeView}
      (hfunction : bodies.function? owner = some function)
      (hwritten : occurrence ∈ Builder.FunctionDeclaration.written function)
      (hview : bodies.sourceType owner occurrence = some view) :
      Writes (.function owner arguments) owner arguments view
  | expression {owner : DeclarationIdentity} {arguments : List ClosedType}
      {function : FunctionDeclaration} {expression : Expression} {view : TypeView}
      (hfunction : bodies.function? owner = some function)
      (hexpression : expression ∈ function.expressions) (hview : expression.type = some view) :
      Writes (.function owner arguments) owner arguments view
  | typeArgument {owner : DeclarationIdentity} {arguments : List ClosedType}
      {function : FunctionDeclaration} {expression : Expression} {occurrence : UInt32}
      {view : TypeView} (hfunction : bodies.function? owner = some function)
      (hexpression : expression ∈ function.expressions)
      (hargument : occurrence ∈ expression.typeArguments)
      (hview : bodies.sourceType owner occurrence = some view) :
      Writes (.function owner arguments) owner arguments view

/-- A closed type occurs in what an instance writes. -/
def Mentions (i : Instance) (t : ClosedType) : Prop :=
  ∃ owner arguments view, Writes bodies i owner arguments view
    ∧ ClosedPart bodies owner arguments view t

/-- A function calls another, over what the type arguments of the call close to. -/
def Calls (owner : DeclarationIdentity) (arguments : List ClosedType)
    (target : DeclarationIdentity) (targetArguments : List ClosedType) : Prop :=
  ∃ function expression call, bodies.function? owner = some function
    ∧ expression ∈ function.expressions ∧ expression.call = some call
    ∧ expression.intrinsic = false ∧ bodies.target owner call.callee = some target
    ∧ List.Forall₂ (fun occurrence t => bodies.closedSource owner arguments occurrence = some t)
      (call.typeArguments.getD []) targetArguments

/-- An instance depends on the generic types in what it mentions, a builtin type on those in its
arguments, and a function on the generic functions it calls. -/
inductive DependsOn : Instance → Instance → Prop
  | mention {i : Instance} {t g : ClosedType} (h : Mentions bodies i t) (hinner : g.Subterm t)
      (hgeneric : g.constructor.generic = true) : DependsOn i (.type g)
  | argument {t argument g : ClosedType} (h : t.constructor = .option ∨ t.constructor = .result)
      (hargument : argument ∈ t.arguments) (hinner : g.Subterm argument)
      (hgeneric : g.constructor.generic = true) : DependsOn (.type t) (.type g)
  | call {owner target : DeclarationIdentity} {arguments targetArguments : List ClosedType}
      (h : Calls bodies owner arguments target targetArguments) (hgeneric : targetArguments ≠ []) :
      DependsOn (.function owner arguments) (.function target targetArguments)

/-- The instances of declarations that are not generic, and the closed types that are written. -/
inductive Root : Instance → Prop
  | data {t : ClosedType} {owner : DeclarationIdentity} (hclosed : t.arguments = [])
      (howner : ownerOf t = some owner) (h : bodies.typeParameters? owner = some 0) :
      Root (.type t)
  | function {owner : DeclarationIdentity} (hkind : owner.kind = .function)
      (h : bodies.typeParameters? owner = some 0) : Root (.function owner [])
  | occurrence {owner : DeclarationIdentity} {occurrence : UInt32} {view : TypeView}
      {t : ClosedType} (hdeclared : bodies.Declared owner)
      (hview : bodies.sourceType owner occurrence = some view)
      (hpart : ClosedPart bodies owner [] view t) : Root (.type t)

/-- The least set of instances that contains `start` and the roots, and is closed under arguments,
what members mention, and what they call. -/
inductive Reached (start : Instance → Prop) : Instance → Prop
  | start {i : Instance} (h : start i) : Reached start i
  | root {i : Instance} (h : Root bodies i) : Reached start i
  | argument {t argument : ClosedType} (h : Reached start (.type t))
      (hargument : argument ∈ t.arguments) : Reached start (.type argument)
  | mention {i : Instance} {t : ClosedType} (h : Reached start i) (hmention : Mentions bodies i t) :
      Reached start (.type t)
  | call {owner target : DeclarationIdentity} {arguments targetArguments : List ClosedType}
      (h : Reached start (.function owner arguments))
      (hcall : Calls bodies owner arguments target targetArguments) :
      Reached start (.function target targetArguments)

inductive Scalar : Instance → Prop
  | mk {t : ClosedType} (h : t.constructor = .bool ∨ t.constructor = .i32 ∨ t.constructor = .string) :
      Scalar (.type t)

/-! ### Storability -/

/-- A type holds its arguments and the types of its members. -/
inductive Holds : ClosedType → ClosedType → Prop
  | argument {t u : ClosedType} (h : u ∈ t.arguments) : Holds t u
  | member {t u : ClosedType} {owner : DeclarationIdentity} {occurrence : UInt32}
      (hmember : MemberAt bodies t owner occurrence)
      (hclosed : bodies.closedSource owner t.arguments occurrence = some u) : Holds t u

/-- The type of some member is not closed, so it is not one of stored values. -/
def NonStorableMember (t : ClosedType) : Prop :=
  ∃ owner occurrence, MemberAt bodies t owner occurrence
    ∧ bodies.closedSource owner t.arguments occurrence = none

/-- A non-storable member is reachable through arguments and members. -/
def Unstorable (t : ClosedType) : Prop :=
  ∃ u, ReflTransGen (Holds bodies) t u ∧ NonStorableMember bodies u

end Zryna.Semantics.Instantiation
