import Zryna.Foundation.SortedSlice
import Zryna.Layout

/-!
# Sealed layouts of closed generic types

The authority that the verifier of closed generic layouts issues, as far as the generic
intermediate representation reads it: one record for every type of the closed universe, in the
order of the complete keys. A `VerifiedLayouts` carries what its only constructor establishes about
the records.
-/

namespace Zryna.Layout.Generic

abbrev Digest := { bytes : List UInt8 // bytes.length = 32 }

/-- Most closed types of a universe. -/
def maxTypeNodes : ℕ := 65536

/-- Most variants of an enum. -/
def maxMembersPerDeclaration : ℕ := 1024

/-- A closed type: its complete key, its drop category, and the ordinals and payloads of its
variants. Other forms than enums have no variants. -/
structure TypeView where
  key : List UInt8
  dropKind : UInt32
  variants : List (UInt32 × Option UInt32)
deriving DecidableEq

/-- Separately sealed layouts for one source map and one storage target. -/
structure VerifiedLayouts where
  sourceMapIdentity : ℕ
  target : StorageTarget
  universeIdentity : Digest
  fingerprint : Digest
  types : List TypeView
  types_le : types.length ≤ maxTypeNodes
  /-- Records are in unsigned order of their keys, and a key stands for one type. -/
  keys_sorted : SortedSlice.Sorted TypeView.key types
  /-- `bool` and `i32` belong to every universe, and no key is smaller than theirs. -/
  bool_key : (types[0]?).map TypeView.key = some [0x00]
  i32_key : (types[1]?).map TypeView.key = some [0x01]
  variants_le : ∀ view ∈ types, view.variants.length ≤ maxMembersPerDeclaration
  /-- The ordinals of an enum are dense, in source order. -/
  ordinals_dense : ∀ view ∈ types, ∀ (i : ℕ) (ordinal : UInt32) (payload : Option UInt32),
    view.variants[i]? = some (ordinal, payload) → ordinal.toNat = i
  /-- A payload is a type of the same universe. -/
  payloads_lt : ∀ view ∈ types, ∀ (ordinal payload : UInt32),
    (ordinal, some payload) ∈ view.variants → payload.toNat < types.length

end Zryna.Layout.Generic
