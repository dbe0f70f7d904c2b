import Zryna.Foundation.Report
import Zryna.Ir.DataOwnership.Raw
import Zryna.Layout

/-!
# Places, their paths and their overlap

A declared place is a root or a projection of a place declared before it. The walks of this file
follow bases upwards. The source stops a walk at the first place it has already seen; bases precede
their projections in every function that reaches these walks, so a walk is bounded by the number
of places and the fuel below is never used up.

Place identities are positions of the place table by the time these functions run.
-/

namespace Zryna.Ir.DataOwnership

open Layout Report

/-! ### Diagnostics -/

abbrev Check := Report Diagnostic

def error (code message guidance : String) : Diagnostic :=
  Diagnostic.error code none message guidance

def errorAt (code : String) (span : Span) (message guidance : String) : Diagnostic :=
  Diagnostic.errorAt code span message guidance

def ownershipError (span : Span) (message : String) : Diagnostic :=
  errorAt "ZRYNA-I3010" span message "emit only legal ownership state transitions"

def limitAt (label : String) (maximum : ℕ) : Diagnostic :=
  error "ZRYNA-I3201" s!"DataOwnershipV1 {label} exceeds its limit of {maximum}"
    "reduce the program before IR verification"

/-! ### Layout lookups -/

section

variable (layouts : VerifiedLayouts) (id : ℕ)

def layoutType : Option VerifiedType := layouts.records[id]?

def layoutCategory : Option TypeCategory :=
  (layoutType layouts id).map VerifiedType.category

/-- The type exists and has nothing to drop. -/
def typeIsCopy : Bool :=
  (layoutType layouts id).any fun ty => ty.dropKind = 0

/-- The type exists and has something to drop. -/
def typeNeedsDrop : Bool :=
  (layoutType layouts id).any fun ty => ty.dropKind ≠ 0

end

def isAggregateCategory : TypeCategory → Bool
  | .struct | .fixedArray => true
  | _ => false

def placeType (function : Function) (place : ℕ) : Option ℕ :=
  (function.places[place]?).map Place.ty

def placeKind (places : List Place) (place : ℕ) : Option PlaceKind :=
  (places[place]?).map Place.kind

def placeIsCopy (place : ℕ) (function : Function) (layouts : VerifiedLayouts) : Bool :=
  (placeType function place).any (typeIsCopy layouts)

def placeRecord (place : ℕ) (function : Function) (layouts : VerifiedLayouts) :
    Option VerifiedType :=
  (placeType function place).bind (layoutType layouts)

/-! ### Walks towards the root -/

def placeBase (places : List Place) (place : ℕ) : Option ℕ :=
  (placeKind places place).bind projectionBase

def walkBelow (places : List Place) (root : ℕ) : ℕ → ℕ → Bool
  | 0, _ => false
  | fuel + 1, place =>
    match placeBase places place with
    | none => false
    | some base => base = root || walkBelow places root fuel base

def isProjectionBelow (place root : ℕ) (places : List Place) : Bool :=
  walkBelow places root (places.length + 1) place

def walkRoot (places : List Place) : ℕ → ℕ → ℕ
  | 0, place => place
  | fuel + 1, place =>
    match placeBase places place with
    | none => place
    | some base => walkRoot places fuel base

def rootPlace (place : ℕ) (function : Function) : ℕ :=
  walkRoot function.places (function.places.length + 1) place

def walkPath (places : List Place) (root : ℕ) : ℕ → ℕ → List (ℕ × ℕ) → Option (List (ℕ × ℕ))
  | 0, _, _ => none
  | fuel + 1, place, path =>
    match (placeKind places place).bind projectionStep with
    | none => none
    | some (base, step) =>
      if base = root then some (step :: path) else walkPath places root fuel base (step :: path)

/-- The selectors that lead from `root` to its proper projection `place`. -/
def projectionPath (place root : ℕ) (places : List Place) : Option (List (ℕ × ℕ)) :=
  if place = root then none else walkPath places root (places.length + 1) place []

def walkPayloads (places : List Place) : ℕ → ℕ → List (ℕ × ℕ)
  | 0, _ => []
  | fuel + 1, place =>
    match placeKind places place with
    | none => []
    | some kind =>
      let here :=
        match kind with
        | .enumPayload base variant => [(base, variant)]
        | _ => []
      match projectionBase kind with
      | none => here
      | some base => here ++ walkPayloads places fuel base

/-- The enums whose payload `place` lies in, innermost first, with the variant of that payload. -/
def enumPayloadAncestors (place : ℕ) (function : Function) : List (ℕ × ℕ) :=
  walkPayloads function.places (function.places.length + 1) place

def walkStatic (places : List Place) : ℕ → ℕ → Bool → Bool
  | 0, _, _ => false
  | fuel + 1, place, projected =>
    match placeKind places place with
    | none => false
    | some (.structField base _) | some (.fixedArrayConstant base _) =>
      walkStatic places fuel base true
    | some (.enumPayload _ _) => false
    | some _ => projected

/-- `place` is a projection that enters no enum payload. -/
def staticProjectionPath (place : ℕ) (function : Function) : Bool :=
  walkStatic function.places (function.places.length + 1) place false

/-! ### Overlap -/

def isAncestorOrSame (ancestor place : ℕ) (places : List Place) : Bool :=
  place = ancestor || isProjectionBelow place ancestor places

/-- One of the two places contains the other. -/
def placesOverlap (left right : ℕ) (places : List Place) : Bool :=
  isAncestorOrSame left right places || isAncestorOrSame right left places

/-- The active borrows: the conflict region and the access of each borrow identity. -/
abbrev Active := List (Option (ℕ × BorrowAccess))

/-- The active borrow under an identity. -/
def Active.get (active : Active) (borrow : ℕ) : Option (ℕ × BorrowAccess) :=
  (active[borrow]?).join

/-- Write an entry, growing the table when the identity lies beyond it. -/
def Active.put (active : Active) (borrow : ℕ) (entry : Option (ℕ × BorrowAccess)) : Active :=
  (active ++ List.replicate (borrow + 1 - active.length) none).set borrow entry

def overlapsActive (place : ℕ) (active : Active) (places : List Place) : Bool :=
  active.any fun entry => entry.any fun (borrowed, _) => placesOverlap place borrowed places

def overlapsExclusive (place : ℕ) (active : Active) (places : List Place) : Bool :=
  active.any fun entry => entry.any fun (borrowed, access) =>
    access = .exclusive && placesOverlap place borrowed places

/-- A new borrow would overlap an active one although one of the two is exclusive. -/
def conflicts (definition : BorrowDefinition) (active : Active) (places : List Place) : Bool :=
  active.any fun entry => entry.any fun (place, access) =>
    placesOverlap definition.place place places
      && (definition.access = .exclusive || access = .exclusive)

/-! ### Declared children -/

def findChild (places : List Place) (kind : PlaceKind) : Option ℕ :=
  places.findIdx? fun place => place.kind = kind

/-- The declared immediate projections of a struct or of a fixed array, one for each field or
index, or nothing when one is missing. -/
def canonicalChildren (base : ℕ) (function : Function) (layouts : VerifiedLayouts) :
    Option (List ℕ) :=
  (placeRecord base function layouts).bind fun ty =>
    match ty.kind with
    | .struct _ _ fields =>
      fields.mapM fun field => findChild function.places (.structField base field.ordinal)
    | .fixedArray _ length =>
      (List.range length).mapM fun index =>
        findChild function.places (.fixedArrayConstant base index)
    | _ => none

/-! ### Exact topology -/

/-- The paths below a type that stores scalars, strings, structs and arrays only. `active` holds
the types on the way down and `none` says that another kind of type occurs. -/
def collectPaths (layouts : VerifiedLayouts) :
    ℕ → ℕ → List ℕ → List (ℕ × ℕ) → Option (List (List (ℕ × ℕ)))
  | 0, _, _, _ => none
  | fuel + 1, ty, active, path =>
    if ty ∈ active then none
    else
      match (layoutType layouts ty).map VerifiedType.kind with
      | some (.struct _ _ fields) =>
        (fields.mapM fun field =>
          let path := path ++ [(0, field.ordinal)]
          (collectPaths layouts fuel field.ty (ty :: active) path).map (path :: ·)).map
            List.flatten
      | some (.fixedArray element length) =>
        ((List.range length).mapM fun index =>
          let path := path ++ [(2, index)]
          (collectPaths layouts fuel element (ty :: active) path).map (path :: ·)).map
            List.flatten
      | some .bool | some .i32 | some .string => some []
      | _ => none

/-- Two lists have the same elements. -/
def sameElements {α : Type} [DecidableEq α] (xs ys : List α) : Bool :=
  xs.all (· ∈ ys) && ys.all (· ∈ xs)

def declaredPaths (root : ℕ) (places : List Place) : List (List (ℕ × ℕ)) :=
  (List.range places.length).filterMap fun place => projectionPath place root places

/-- Every field and element below a struct or an array, at any depth, is declared. -/
def hasExactProjectionTopology (root : ℕ) (function : Function) (layouts : VerifiedLayouts) :
    Bool :=
  (placeType function root).any fun ty =>
    (layoutCategory layouts ty).any isAggregateCategory
      && (collectPaths layouts (layouts.records.length + 1) ty [] []).any fun expected =>
        sameElements (declaredPaths root function.places) expected

end Zryna.Ir.DataOwnership
