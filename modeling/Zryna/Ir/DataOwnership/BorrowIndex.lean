import Zryna.Ir.DataOwnership.Places

/-!
# The borrow index

One entry per borrow identity of a function: the referent type and access of the borrow, the place
whose storage it conflicts with, and, for a transient indexed access, the definition it started
from. A projection reads the entry of its parent only, which precedes it.

`incoming` lists the transient accesses that are still open when a block is entered.
-/

namespace Zryna.Ir.DataOwnership

open Layout Report

/-! ### Element types -/

def containerElementType (ty : ℕ) (layouts : VerifiedLayouts) : Option ℕ :=
  (layoutType layouts ty).bind fun record =>
    match record.kind with
    | .fixedArray element _ => some element
    | .vec element =>
      (layoutType layouts element).bind fun elementRecord =>
        if elementRecord.size > 0 then some element else none
    | _ => none

def elementType (function : Function) (place : ℕ) (layouts : VerifiedLayouts) : Option ℕ :=
  (placeType function place).bind fun ty => containerElementType ty layouts

/-! ### Entries -/

structure BorrowEntry where
  definition : Option (ℕ × BorrowAccess)
  region : Option ℕ
  origin : Option (BorrowDefinition × ℕ)
deriving DecidableEq

structure BorrowIndex where
  entries : List BorrowEntry
  incoming : List (List ℕ)
deriving DecidableEq

namespace BorrowIndex

def entryOf (entries : List BorrowEntry) (function : Function) (layouts : VerifiedLayouts) :
    InstructionKind → Option BorrowEntry
  | .beginBorrow definition =>
    some ⟨(placeType function definition.place).map (·, definition.access),
      some definition.place, none⟩
  | .beginIndexedBorrow definition _ _ =>
    some ⟨(elementType function definition.place layouts).map (·, definition.access),
      some definition.place, none⟩
  | .beginIndexedAccess definition _ _ =>
    some ⟨(elementType function definition.place layouts).map (·, definition.access),
      some definition.place, some (definition, 0)⟩
  | .bindIndexedBorrow parent borrow =>
    let parentEntry := (entries[parent]?).filter fun entry =>
      parent < borrow && entry.origin.isSome
    some ⟨parentEntry.bind BorrowEntry.definition, parentEntry.bind BorrowEntry.region, none⟩
  | .projectIndexedBorrow parent borrow _ _ =>
    let parentEntry := (entries[parent]?).filter fun _ => parent < borrow
    let origin := (parentEntry.bind BorrowEntry.origin).map fun (origin, depth) =>
      (origin, depth + 1)
    let definition := origin.bind fun _ =>
      (parentEntry.bind BorrowEntry.definition).bind fun (ty, access) =>
        (containerElementType ty layouts).map (·, access)
    some ⟨definition, origin.map fun (origin, _) => origin.place, origin⟩
  | _ => none

def insert (function : Function) (layouts : VerifiedLayouts) (entries : List BorrowEntry)
    (kind : InstructionKind) : List BorrowEntry :=
  match entryOf entries function layouts kind with
  | some entry => entries ++ [entry]
  | none => entries

def parameterEntry (parameter : BorrowParameter) : BorrowEntry :=
  ⟨some (parameter.referent, parameter.access), none, none⟩

/-- The index of a function, before the open accesses of its blocks are known. -/
def new (function : Function) (layouts : VerifiedLayouts) : BorrowIndex where
  entries := (function.instructions.map Instruction.kind).foldl (insert function layouts)
    (function.borrowParameters.map parameterEntry)
  incoming := []

variable (index : BorrowIndex)

def definition (id : ℕ) : Option (ℕ × BorrowAccess) :=
  (index.entries[id]?).bind BorrowEntry.definition

def region (id : ℕ) : Option ℕ := (index.entries[id]?).bind BorrowEntry.region

def origin (id : ℕ) : Option (BorrowDefinition × ℕ) :=
  (index.entries[id]?).bind BorrowEntry.origin

/-- The conflict region of a borrow parameter: the identity of no place. -/
def formalRegion : ℕ := 2 ^ 32 - 1

def activeEntry (id : ℕ) : Option (ℕ × BorrowAccess) :=
  (index.region id).bind fun region => (index.definition id).map fun (_, access) =>
    (region, access)

def entryActive (function : Function) (block : ℕ) : Active :=
  let parameters := function.borrowParameters.foldl
    (fun active parameter => active.set parameter.id (some (formalRegion, parameter.access)))
    (List.replicate index.entries.length none)
  ((index.incoming[block]?).getD []).foldl
    (fun active id => active.set id (index.activeEntry id)) parameters

end BorrowIndex

/-! ### Open accesses -/

/-- The borrows that are open after an instruction, in the order they were issued. -/
def advance (active : List ℕ) : InstructionKind → List ℕ
  | .beginBorrow definition | .beginIndexedBorrow definition _ _
  | .beginIndexedAccess definition _ _ => active ++ [definition.id]
  | .endBorrow borrow => active.filter (· ≠ borrow)
  | .projectIndexedBorrow parent borrow _ _ | .bindIndexedBorrow parent borrow =>
    active.filter (· ≠ parent) ++ [borrow]
  | _ => active

namespace BorrowIndex

/-- The open borrows before an instruction of a block. -/
def activeBefore (index : BorrowIndex) (function : Function) (block instruction : ℕ) : List ℕ :=
  (((function.blocks[block]?).map Block.instructions).getD []).take instruction
    |>.foldl (fun active instruction => advance active instruction.kind)
      (function.borrowParameters.map BorrowParameter.id ++ (index.incoming[block]?).getD [])

end BorrowIndex

/-! ### Variants behind a borrow -/

/-- Forget the active variant of every place in the region of a borrow. -/
def invalidateBorrowVariants (function : Function) (borrows : BorrowIndex) (borrow : ℕ)
    (variants : List (Option ℕ)) : List (Option ℕ) :=
  match borrows.region borrow with
  | none => variants
  | some region =>
    variants.mapIdx fun place variant =>
      if place < function.places.length ∧
          (place = region ∨ isProjectionBelow place region function.places = true) then none
      else variant

/-- Forget the variants behind every exclusive argument of a call. -/
def invalidateCallVariants (kind : InstructionKind) (function : Function) (borrows : BorrowIndex)
    (variants : List (Option ℕ)) : List (Option ℕ) :=
  match kind with
  | .directCall _ arguments _ =>
    (borrowArguments arguments).foldl
      (fun variants borrow =>
        if (borrows.definition borrow).any fun (_, access) => access = .exclusive then
          invalidateBorrowVariants function borrows borrow variants
        else variants) variants
  | _ => variants

/-- The root that owns a value, if one is declared. -/
def valueOwner (function : Function) (value : ℕ) : Option ℕ :=
  function.places.findIdx? fun place =>
    match place.kind with
    | .temporary id => id = value
    | .parameter index => (function.parameters[index]?).any fun parameter => parameter.id = value
    | _ => false

/-- No operand that is taken over may be borrowed. -/
def verifyConsumption (instruction : Instruction) (function : Function)
    (layouts : VerifiedLayouts) (active : Active) : Check Unit :=
  forM (consumingInstructionOperands instruction.kind) fun value =>
    match valueOwner function value with
    | none => pure ()
    | some owner =>
      pushIf ((placeType function owner).any (typeNeedsDrop layouts) = true
          ∧ overlapsActive owner active function.places = true)
        (ownershipError instruction.span "instruction consumes a borrowed owner")

end Zryna.Ir.DataOwnership
