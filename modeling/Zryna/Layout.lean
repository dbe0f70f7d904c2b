import Zryna.Source

/-!
# Verified layouts

The sealed type universe that `zryna-layout` issues to the ownership representation: a dense table
of records, each of a closed kind, together with the identities that bind the table to a source
map, a universe and a storage target. Offsets, alignments and runtime metadata are read by no
check of the representation and are left out.

A `VerifiedLayouts` value carries what its only constructor establishes about the table: records
sit at their own identity, references stay inside the table, members are numbered by position, a
record needs dropping exactly when something it stores by value does, and no type stores itself by
value.
-/

namespace Zryna.Layout

open List

inductive StorageTarget where
  | linear32V1
  | linuxX8664V1
deriving DecidableEq

/-- Stored type categories. -/
inductive TypeCategory where
  | bool
  | i32
  | struct
  | enum
  | fixedArray
  | string
  | vec
  | shared
  | weak
deriving DecidableEq

/-- Source-ordered struct field. -/
structure VerifiedField where
  ordinal : ℕ
  ty : ℕ
deriving DecidableEq

/-- Source-ordered enum variant. -/
structure VerifiedVariant where
  ordinal : ℕ
  payload : Option ℕ
deriving DecidableEq

inductive VerifiedKind where
  | bool
  | i32
  | string
  | struct (module declaration : ℕ) (fields : List VerifiedField)
  | enum (module declaration : ℕ) (variants : List VerifiedVariant)
  | fixedArray (element length : ℕ)
  | vec (element : ℕ)
  | shared (payload : ℕ)
  | weak (payload : ℕ)
deriving DecidableEq

/-- One record of the sealed table. -/
structure VerifiedType where
  id : ℕ
  kind : VerifiedKind
  size : ℕ
  dropKind : ℕ
deriving DecidableEq

namespace VerifiedType

variable (record : VerifiedType)

def category : TypeCategory :=
  match record.kind with
  | .bool => .bool
  | .i32 => .i32
  | .string => .string
  | .struct .. => .struct
  | .enum .. => .enum
  | .fixedArray .. => .fixedArray
  | .vec _ => .vec
  | .shared _ => .shared
  | .weak _ => .weak

/-- Struct fields, or nothing for another category. -/
def fields : List VerifiedField :=
  match record.kind with
  | .struct _ _ fields => fields
  | _ => []

/-- Enum variants, or nothing for another category. -/
def variants : List VerifiedVariant :=
  match record.kind with
  | .enum _ _ variants => variants
  | _ => []

def nominalIdentity : Option (ℕ × ℕ) :=
  match record.kind with
  | .struct module declaration _ | .enum module declaration _ => some (module, declaration)
  | _ => none

def arrayLength : Option ℕ :=
  match record.kind with
  | .fixedArray _ length => some length
  | _ => none

/-- The element or payload type of a container or a handle. -/
def referencedType : Option ℕ :=
  match record.kind with
  | .fixedArray element _ | .vec element => some element
  | .shared payload | .weak payload => some payload
  | _ => none

/-- Types stored inside the record itself. -/
def byValueChildren : List ℕ :=
  match record.kind with
  | .struct _ _ fields => fields.map VerifiedField.ty
  | .enum _ _ variants => variants.filterMap VerifiedVariant.payload
  | .fixedArray element _ => [element]
  | _ => []

/-- Types the record refers to, by value or through a container. -/
def allChildren : List ℕ := record.byValueChildren ++ record.referencedType.toList

/-- A category whose storage is a resource of its own. -/
def isResource : Bool :=
  match record.kind with
  | .string | .vec _ | .shared _ | .weak _ => true
  | _ => false

end VerifiedType

/-- What the layout verifier establishes about a table of records. -/
structure Sealed (records : List VerifiedType) : Prop where
  id_eq : ∀ (i : ℕ) (record : VerifiedType), records[i]? = some record → record.id = i
  children_lt : ∀ record ∈ records, ∀ child ∈ record.allChildren, child < records.length
  field_ordinal : ∀ record ∈ records, ∀ (i : ℕ) (field : VerifiedField),
    record.fields[i]? = some field → field.ordinal = i
  variant_ordinal : ∀ record ∈ records, ∀ (i : ℕ) (variant : VerifiedVariant),
    record.variants[i]? = some variant → variant.ordinal = i
  dropKind_eq_zero : ∀ record ∈ records, record.dropKind = 0 ↔ record.isResource = false
    ∧ ∀ child ∈ record.byValueChildren, ∀ inner, records[child]? = some inner →
      inner.dropKind = 0
  acyclic : ∃ rank : ℕ → ℕ, ∀ (i : ℕ) (record : VerifiedType), records[i]? = some record →
    ∀ child ∈ record.byValueChildren, rank child < rank i

/-- A record at position `i` of a table that lists the types a record stores before the record. -/
def orderedRecord (records : List VerifiedType) (entry : VerifiedType × ℕ) : Bool :=
  let (record, i) := entry
  record.id = i && record.allChildren.all (· < records.length)
    && record.fields.zipIdx.all (fun (field, position) => field.ordinal = position)
    && record.variants.zipIdx.all (fun (variant, position) => variant.ordinal = position)
    && record.byValueChildren.all (· < i)
    && ((record.dropKind = 0) = (record.isResource = false
      ∧ record.byValueChildren.all (fun child =>
        (records[child]?).all fun inner => inner.dropKind = 0) = true))

/-- A table in that order is sealed as soon as its records are. -/
theorem sealed_of_ordered {records : List VerifiedType}
    (h : records.zipIdx.all (orderedRecord records) = true) : Sealed records := by
  have hrecord : ∀ (i : ℕ) (record : VerifiedType), records[i]? = some record →
      orderedRecord records (record, i) = true := by
    intro i record hi
    exact all_eq_true.mp h _ (mem_zipIdx_iff_getElem?.mpr hi)
  simp only [orderedRecord, Bool.and_eq_true, decide_eq_true_eq, all_eq_true] at hrecord
  have hmem : ∀ record ∈ records, ∃ i, records[i]? = some record :=
    fun record hrecord => mem_iff_getElem?.mp hrecord
  refine ⟨fun i record hi => (hrecord i record hi).1.1.1.1.1, ?_, ?_, ?_, ?_,
    id, fun i record hi => (hrecord i record hi).1.2⟩
  · intro record hr
    obtain ⟨i, hi⟩ := hmem record hr
    exact (hrecord i record hi).1.1.1.1.2
  · intro record hr position field hfield
    obtain ⟨i, hi⟩ := hmem record hr
    exact (hrecord i record hi).1.1.1.2 (field, position) (mem_zipIdx_iff_getElem?.mpr hfield)
  · intro record hr position variant hvariant
    obtain ⟨i, hi⟩ := hmem record hr
    exact (hrecord i record hi).1.1.2 (variant, position) (mem_zipIdx_iff_getElem?.mpr hvariant)
  · intro record hr
    obtain ⟨i, hi⟩ := hmem record hr
    rw [(hrecord i record hi).2]
    simp only [Option.all_eq_true, decide_eq_true_eq]

/-- Sealed target layout snapshot. -/
structure VerifiedLayouts where
  sourceMapIdentity : ℕ
  universeIdentity : List ℕ
  target : StorageTarget
  records : List VerifiedType
  fingerprint : List ℕ
  isSealed : Sealed records

namespace VerifiedLayouts

variable (layouts : VerifiedLayouts)

/-- Looks up one canonical type identity. -/
def typeById (id : ℕ) : Option VerifiedType := layouts.records[id]?

end VerifiedLayouts

end Zryna.Layout
