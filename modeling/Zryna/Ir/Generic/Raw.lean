import Zryna.Layout.Generic
import Zryna.Source.Untrusted

/-!
# Raw closed generic programs

The untrusted claims of the generic intermediate representation, with the field names of the
source. Every function is a closed instance or a nongeneric root and is named by its complete key;
types are positions in the list of complete type keys.
-/

namespace Zryna.Ir.Generic.Raw

open Zryna.Layout.Generic (Digest)

/-- One claimed complete module inventory entry. -/
structure Module where
  id : UInt32
  functions : UInt32
deriving DecidableEq

/-- Claimed original function metadata. -/
structure Declaration where
  module : UInt32
  function : UInt32
  parameters : UInt32
  span : UntrustedSpan
deriving DecidableEq

/-- Exact logical value type. -/
inductive Ty where
  | stored (id : UInt32)
  | unit
  | borrow (referent : UInt32) (exclusive : Bool)
deriving DecidableEq

/-- One claimed value definition in the dense value arena of a function. -/
structure Definition where
  id : UInt32
  ty : Ty
deriving DecidableEq

/-- Closed typed operations. -/
inductive Operation where
  | boolLiteral (value : Bool)
  | i32Literal (value : Int32)
  | unit
  | copy (value : UInt32)
  | i32Add (left right : UInt32)
  | closedGenericCall (target : UInt32) (arguments : List UInt32)
  | sourceCall (module function : UInt32) (arguments : List UInt32)
  | closedEnumConstruct (ty ordinal : UInt32) (payload : Option UInt32)
deriving DecidableEq

structure Instruction where
  result : Definition
  span : UntrustedSpan
  operation : Operation
deriving DecidableEq

/-- An ordinary edge; its arguments are in source evaluation order. -/
structure Edge where
  target : UInt32
  arguments : List UInt32
deriving DecidableEq

inductive MatchMode where
  | value
  | sharedBorrow
  | exclusiveBorrow
deriving DecidableEq

/-- One match successor. The binding, when there is one, is the first parameter of the target. -/
structure Arm where
  ordinal : UInt32
  binding : Option Definition
  edge : Edge
deriving DecidableEq

inductive Terminator where
  | return (value : UInt32)
  | jump (edge : Edge)
  | branch (condition : UInt32) (yes no : Edge)
  | closedEnumMatch (ty scrutinee : UInt32) (mode : MatchMode) (arms : List Arm)
deriving DecidableEq

structure Block where
  id : UInt32
  parameters : List Definition
  instructions : List Instruction
  span : UntrustedSpan
  terminator : Terminator
deriving DecidableEq

structure Function where
  key : List UInt8
  span : UntrustedSpan
  publicExport : Option String
  parameters : List Ty
  result : Ty
  blocks : List Block
deriving DecidableEq

structure Program where
  modules : List Module
  declarations : List Declaration
  typeKeys : List (List UInt8)
  universeIdentity : Digest
  linear32 : Digest
  linuxX8664 : Digest
  functions : List Function
deriving DecidableEq

/-- The edges of a terminator, in the order of the arms. -/
def edges : Terminator → List Edge
  | .return _ => []
  | .jump edge => [edge]
  | .branch _ yes no => [yes, no]
  | .closedEnumMatch _ _ _ arms => arms.map Arm.edge

end Zryna.Ir.Generic.Raw
