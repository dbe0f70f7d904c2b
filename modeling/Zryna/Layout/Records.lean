import Mathlib.Data.Finset.Card
import Mathlib.Data.List.MinMax
import Mathlib.Order.Bounds.Basic
import Zryna.Foundation.Checked
import Zryna.Foundation.Outcome
import Zryna.Layout
import Zryna.Layout.Identities

/-!
# Layout records

The fifth pass of the aggregate layout verifier computes size, alignment and member offsets of every
type for one storage target, by a recursion over by-value children that stores what it has
computed. The pass reads the nodes in canonical order, where a reference is a `TypeId`.

`LocalSound` says what a stored record means, in terms of the records of the types it stores by
value. `computeOne_inv` is the step: a call stores sound records only and never changes one.
-/

namespace Zryna.Layout.Aggregate

open Raw Checked List Option

/-! ### Records -/

/-- Canonical dense type identity branded by its type universe. -/
structure TypeId where
  universeIdentity : List ℕ
  index : ℕ
deriving DecidableEq

/-- Verified source-ordered struct field. -/
structure VerifiedField where
  ordinal : ℕ
  ty : TypeId
  offset : ℕ
deriving DecidableEq

/-- Verified source-ordered enum variant. -/
structure VerifiedVariant where
  ordinal : ℕ
  payload : Option TypeId
deriving DecidableEq

inductive VerifiedKind where
  | bool
  | i32
  | string
  | struct (module declaration : ℕ) (fields : List VerifiedField)
  | enum (module declaration : ℕ) (variants : List VerifiedVariant)
    (payloadOffset payloadSize : ℕ)
  | fixedArray (element : TypeId) (length stride : ℕ)
  | vec (element : TypeId)
  | shared (payload : TypeId)
  | weak (payload : TypeId)
deriving DecidableEq

structure LayoutRecord where
  id : TypeId
  kind : VerifiedKind
  size : ℕ
  alignment : ℕ
  dropKind : ℕ
  runtimeKind : ℕ
deriving DecidableEq

/-- Size and alignment of a machine word. -/
def wordLayout : StorageTarget → ℕ × ℕ
  | .linear32V1 => (4, 4)
  | .linuxX8664V1 => (8, 8)

/-! ### Checked arithmetic -/

def checkedAlignUpWithLimit (value alignment limit : ℕ) : Option ℕ :=
  if alignment = 0 ∨ ¬alignment.isPowerOfTwo then none
  else
    let remainder := value % alignment
    let aligned := if remainder = 0 then value else value + (alignment - remainder)
    if aligned < 2 ^ 64 ∧ aligned ≤ limit then some aligned else none

def checkedAlignUp (value alignment : ℕ) : Option ℕ :=
  checkedAlignUpWithLimit value alignment (2 ^ 64 - 1)

def checkedStorageAdd (left right limit : ℕ) : Option ℕ :=
  if left + right < 2 ^ 64 ∧ left + right ≤ limit then some (left + right) else none

def checkedStorageMul (left right limit : ℕ) : Option ℕ :=
  if left * right < 2 ^ 64 ∧ left * right ≤ limit then some (left * right) else none

/-! ### The pass -/

/-- Why a type gets no record: a diagnostic, an `expect` that fails, or nothing for a borrow. -/
inductive RecordFailure where
  | reported (diagnostic : Diagnostic)
  | panicked
  | borrow
deriving DecidableEq

/-- The state of the field loop. -/
structure StructState where
  cursor : ℕ := 0
  alignment : ℕ := 1
  fields : List VerifiedField := []
  needsDrop : Bool := false
deriving DecidableEq

/-- The state of the variant loop. -/
structure EnumState where
  payloadAlignment : ℕ := 1
  payloadSize : ℕ := 0
  variants : List VerifiedVariant := []
  needsDrop : Bool := false
deriving DecidableEq

section Pass

variable (universeIdentity : List ℕ) (target : StorageTarget)
  (records : ℕ → Option LayoutRecord)

/-- A checked value, or an overflow at a span. -/
def orOverflow (span : Option Span) (label : String) : Option ℕ → Except RecordFailure ℕ
  | some value => .ok value
  | none => .error (.reported (overflowError span label))

def placeField (span : Option Span) (st : StructState) (field : Field) :
    Except RecordFailure StructState :=
  match records field.ty with
  | none => .error (.reported (errorAt span "ZRYNA-L3003" "struct field layout was not resolved"
      "provide an acyclic complete type graph"))
  | some child => do
    let offset ← orOverflow span "struct field offset" (checkedAlignUp st.cursor child.alignment)
    let next ← orOverflow span "struct size" (checkedStorageAdd offset child.size maxObjectSize)
    if next > maxObjectSize then .error (.reported (overflowError span "struct object size"))
    else .ok {
      cursor := next
      alignment := max st.alignment child.alignment
      fields := st.fields ++ [⟨field.ordinal, child.id, offset⟩]
      needsDrop := st.needsDrop || child.dropKind ≠ 0 }

def placeVariant (st : EnumState) (variant : Variant) : Except RecordFailure EnumState :=
  match variant.payload with
  | none => .ok { st with variants := st.variants ++ [⟨variant.ordinal, none⟩] }
  | some payload =>
    match records payload with
    | none => .error .panicked
    | some child => .ok {
        payloadAlignment := max st.payloadAlignment child.alignment
        payloadSize := max st.payloadSize child.size
        variants := st.variants ++ [⟨variant.ordinal, some child.id⟩]
        needsDrop := st.needsDrop || child.dropKind ≠ 0 }

/-- The record of a node whose by-value children have been computed. -/
def recordOf (typeIndex : ℕ) (node : TypeNode) : Except RecordFailure LayoutRecord :=
  let id : TypeId := ⟨universeIdentity, typeIndex⟩
  let (word, wordAlignment) := wordLayout target
  match node.kind with
  | .bool => .ok ⟨id, .bool, 1, 1, 0, 0⟩
  | .i32 => .ok ⟨id, .i32, 4, 4, 0, 0⟩
  | .string => .ok ⟨id, .string, word * 3, wordAlignment, 2, 2⟩
  | .struct module declaration fields => do
    let st ← fields.foldlM (placeField records node.span) {}
    let size ← orOverflow node.span "struct tail alignment"
      (checkedAlignUp st.cursor st.alignment)
    .ok ⟨id, .struct module declaration st.fields, size, st.alignment, st.needsDrop.toNat,
      st.needsDrop.toNat⟩
  | .enum module declaration variants => do
    let st ← variants.foldlM (placeVariant records) {}
    let alignment := max 4 st.payloadAlignment
    let payloadOffset ← orOverflow node.span "enum payload offset"
      (checkedAlignUp 4 st.payloadAlignment)
    let stop ← orOverflow node.span "enum payload size"
      (checkedStorageAdd payloadOffset st.payloadSize maxObjectSize)
    let size ← orOverflow node.span "enum tail alignment" (checkedAlignUp stop alignment)
    if size > maxObjectSize then
      .error (.reported (overflowError node.span "enum object size"))
    else .ok ⟨id, .enum module declaration st.variants payloadOffset st.payloadSize, size,
      alignment, st.needsDrop.toNat, st.needsDrop.toNat⟩
  | .fixedArray element length =>
    match records element with
    | none => .error .panicked
    | some child => do
      let stride ← orOverflow node.span "array stride" (checkedAlignUp child.size child.alignment)
      let size ← orOverflow node.span "array size" (checkedStorageMul stride length maxObjectSize)
      if size > maxObjectSize then
        .error (.reported (overflowError node.span "array object size"))
      else
        let needsDrop : Bool := child.dropKind ≠ 0
        .ok ⟨id, .fixedArray child.id length stride, size, child.alignment, needsDrop.toNat,
          needsDrop.toNat⟩
  | .vec element =>
    if (records element).any fun child => child.size = 0 then
      .error (.reported (errorAt node.span "ZRYNA-L3003"
        "Vec does not admit a zero-sized element type" "use a non-zero-sized element type"))
    else .ok ⟨id, .vec ⟨universeIdentity, element⟩, word * 3, wordAlignment, 3, 3⟩
  | .shared payload => .ok ⟨id, .shared ⟨universeIdentity, payload⟩, word, wordAlignment, 4, 4⟩
  | .weak payload => .ok ⟨id, .weak ⟨universeIdentity, payload⟩, word, wordAlignment, 5, 5⟩
  | .borrow _ => .error .borrow

end Pass

/-- The records stored so far, the types whose computation has begun, and what was reported. -/
structure RecordState where
  records : ℕ → Option LayoutRecord
  visiting : ℕ → Bool
  diagnostics : List Diagnostic

namespace RecordState

variable (st : RecordState)

def visit (index : ℕ) (visiting : Bool) : RecordState :=
  { st with visiting := Function.update st.visiting index visiting }

def report (diagnostic : Diagnostic) : RecordState :=
  { st with diagnostics := st.diagnostics ++ [diagnostic] }

def store (index : ℕ) (record : LayoutRecord) : RecordState :=
  { st with records := Function.update st.records index (some record) }

/-- What the record of a type changes, or why there is none. -/
def settle (index : ℕ) (span : Option Span) : Except RecordFailure LayoutRecord →
    Outcome Unit RecordState
  | .ok record =>
    if record.alignment = 0 ∨ ¬record.alignment.isPowerOfTwo ∨ record.alignment > 8
        ∨ record.size > maxObjectSize then
      .done (st.report (overflowError span "stored layout limit"))
    else .done (st.store index record)
  | .error (.reported diagnostic) => .done (st.report diagnostic)
  | .error .borrow => .done st
  | .error .panicked => .fault ()

end RecordState

section Compute

variable (types : List TypeNode) (universeIdentity : List ℕ) (target : StorageTarget)

/-- Computes the record of one type after those of its by-value children. A fault is a panic. Every
nested call visits another type, so one round more than there are types is enough fuel. -/
def computeOne : ℕ → ℕ → RecordState → Outcome Unit RecordState
  | 0, _, _ => .timeout
  | fuel + 1, typeIndex, st =>
    if (st.records typeIndex).isSome ∨ st.visiting typeIndex then .done st
    else match types[typeIndex]? with
      | none => .fault ()
      | some node => do
        let st ← node.kind.byValueChildren.foldlM (fun st child => computeOne fuel child st)
          (st.visit typeIndex true)
        if st.diagnostics ≠ [] then .done (st.visit typeIndex false)
        else do
          let st ← st.settle typeIndex node.span
            (recordOf universeIdentity target st.records typeIndex node)
          .done (st.visit typeIndex false)

/-- A `Vec` record with elements of no size. -/
def zeroSizedElement (records : List LayoutRecord) (record : LayoutRecord) : Option Diagnostic :=
  match record.kind with
  | .vec element =>
    if (records[element.index]?).any fun child => child.size = 0 then
      some (globalError "ZRYNA-L3003"
        s!"Vec element TypeId {element.index} has zero stored size"
        "use a non-zero-sized Vec element type")
    else none
  | _ => none

def computeRecords : Outcome Unit (Except (List Diagnostic) (List LayoutRecord)) := do
  let st ← (List.range types.length).foldlM
    (fun st index => computeOne types universeIdentity target (types.length + 1) index st)
    ⟨fun _ => none, fun _ => false, []⟩
  match st.diagnostics, (List.range types.length).mapM st.records with
  | [], some records =>
    match records.findSome? (zeroSizedElement records) with
    | none => pure (.ok records)
    | some diagnostic => pure (.error [diagnostic])
  | diagnostics, _ => pure (.error diagnostics)

end Compute

/-! ### What a record means -/

namespace VerifiedKind

/-- Types stored inside the record itself. -/
def byValueChildren : VerifiedKind → List ℕ
  | .struct _ _ fields => fields.map fun field => field.ty.index
  | .enum _ _ variants _ _ =>
    variants.filterMap fun variant => variant.payload.map TypeId.index
  | .fixedArray element _ _ => [element.index]
  | _ => []

/-- A kind whose storage is a resource of its own. -/
def isResource : VerifiedKind → Bool
  | .string | .vec _ | .shared _ | .weak _ => true
  | _ => false

/-- The claim that a kind verifies. -/
def raw : VerifiedKind → TypeKind
  | .bool => .bool
  | .i32 => .i32
  | .string => .string
  | .struct module declaration fields =>
    .struct module declaration (fields.map fun field => ⟨field.ordinal, field.ty.index⟩)
  | .enum module declaration variants _ _ =>
    .enum module declaration
      (variants.map fun variant => ⟨variant.ordinal, variant.payload.map TypeId.index⟩)
  | .fixedArray element length _ => .fixedArray element.index length
  | .vec element => .vec element.index
  | .shared payload => .shared payload.index
  | .weak payload => .weak payload.index

end VerifiedKind

/-- `offset` is the first multiple of the alignment from `start` on. -/
def FirstAligned (start alignment offset : ℕ) : Prop :=
  IsLeast {x | start ≤ x ∧ alignment ∣ x} offset

/-- Fields in order from `start` to `stop`, each at the first offset that its type admits after the
field before it. -/
def FieldsPlaced (records : ℕ → Option LayoutRecord) : ℕ → List VerifiedField → ℕ → Prop
  | start, [], stop => start = stop
  | start, field :: fields, stop => ∃ child, records field.ty.index = some child
      ∧ FirstAligned start child.alignment field.offset
      ∧ FieldsPlaced records (field.offset + child.size) fields stop

/-- The inside of a record. -/
def KindSound (records : ℕ → Option LayoutRecord) (record : LayoutRecord) : Prop :=
  match record.kind with
  | .struct _ _ fields => ∃ stop ≤ record.size, FieldsPlaced records 0 fields stop
  | .enum _ _ variants payloadOffset payloadSize =>
    4 ≤ payloadOffset ∧ payloadOffset + payloadSize ≤ record.size
      ∧ ∀ variant ∈ variants, ∀ payload, variant.payload = some payload →
        ∃ child, records payload.index = some child ∧ child.alignment ∣ payloadOffset
          ∧ child.size ≤ payloadSize
  | .fixedArray element length stride => ∃ child, records element.index = some child
      ∧ FirstAligned child.size child.alignment stride ∧ record.size = stride * length
  | _ => True

/-- A record is sound over the records of the types it stores by value. -/
structure LocalSound (types : List TypeNode) (universeIdentity : List ℕ)
    (records : ℕ → Option LayoutRecord) (index : ℕ) (record : LayoutRecord) : Prop where
  id_eq : record.id = ⟨universeIdentity, index⟩
  kind_eq : (types[index]?).map TypeNode.kind = some record.kind.raw
  power : record.alignment.isPowerOfTwo
  alignment_le : record.alignment ≤ 8
  dvd : record.alignment ∣ record.size
  size_le : record.size ≤ maxObjectSize
  inside : KindSound records record
  dropKind_eq_zero : record.dropKind = 0 ↔ record.kind.isResource = false
    ∧ ∀ child ∈ record.kind.byValueChildren, ∀ inner, records child = some inner →
      inner.dropKind = 0
  resolved : ∀ child ∈ record.kind.byValueChildren, (records child).isSome

/-! ### The computation of one record -/

theorem firstAligned_of_checkedAlignUp {value alignment aligned : ℕ}
    (h : checkedAlignUp value alignment = some aligned) : FirstAligned value alignment aligned := by
  unfold checkedAlignUp checkedAlignUpWithLimit at h
  split at h
  · cases h
  next hvalid =>
  have hpos : 0 < alignment := Nat.pos_of_ne_zero fun hzero => hvalid (.inl hzero)
  obtain ⟨-, haligned⟩ := ite_none_right_eq_some.mp h
  simp only [Option.some.injEq] at haligned
  have hmod := Nat.mod_lt value hpos
  have hsum := Nat.div_add_mod value alignment
  by_cases hzero : value % alignment = 0
  · rw [if_pos hzero] at haligned
    subst haligned
    exact ⟨⟨le_rfl, Nat.dvd_of_mod_eq_zero hzero⟩, fun x hx => hx.1⟩
  · rw [if_neg hzero] at haligned
    -- the next multiple after the one below
    have hnext : aligned = alignment * (value / alignment + 1) := by
      rw [Nat.mul_add, Nat.mul_one]
      omega
    refine ⟨⟨by omega, hnext ▸ Nat.dvd_mul_right _ _⟩, ?_⟩
    rintro x ⟨hle, k, rfl⟩
    rw [hnext]
    refine Nat.mul_le_mul_left alignment (Nat.lt_iff_add_one_le.mp ?_)
    by_contra hk
    have := Nat.mul_le_mul_left alignment (Nat.not_lt.mp hk)
    omega

variable {left limit right a b : ℕ}

theorem checkedStorageAdd_eq_some {sum : ℕ}
    (h : checkedStorageAdd left right limit = some sum) : sum = left + right := by
  obtain ⟨-, hsum⟩ := ite_none_right_eq_some.mp h
  exact (Option.some.inj hsum).symm

theorem checkedStorageMul_eq_some {product : ℕ}
    (h : checkedStorageMul left right limit = some product) : product = left * right := by
  obtain ⟨-, hproduct⟩ := ite_none_right_eq_some.mp h
  exact (Option.some.inj hproduct).symm

@[simp] theorem orOverflow_eq_ok {span : Option Span} {label : String} {value : Option ℕ} :
    orOverflow span label value = .ok a ↔ value = some a := by
  cases value <;> simp [orOverflow]

theorem isPowerOfTwo_max (ha : a.isPowerOfTwo) (hb : b.isPowerOfTwo) : (max a b).isPowerOfTwo := by
  rcases le_total a b with h | h
  · rwa [max_eq_right h]
  · rwa [max_eq_left h]

/-- Powers of two divide larger ones. -/
theorem dvd_of_isPowerOfTwo (ha : a.isPowerOfTwo) (hb : b.isPowerOfTwo) (h : a ≤ b) : a ∣ b := by
  obtain ⟨k, rfl⟩ := ha
  obtain ⟨m, rfl⟩ := hb
  exact Nat.pow_dvd_pow 2 ((Nat.pow_le_pow_iff_right (by decide)).mp h)

section RecordOf

variable {universeIdentity : List ℕ} {records : ℕ → Option LayoutRecord}

/-- Stored records carry their identity and an alignment that is a power of two. -/
def Stored (universeIdentity : List ℕ) (records : ℕ → Option LayoutRecord) : Prop :=
  ∀ index record, records index = some record →
    record.id = ⟨universeIdentity, index⟩ ∧ record.alignment.isPowerOfTwo

theorem placeField_foldlM (hstored : Stored universeIdentity records) {span : Option Span}
    {fields : List Field} {st st' : StructState}
    (h : fields.foldlM (placeField records span) st = .ok st') :
    ∃ placed, st'.fields = st.fields ++ placed
      ∧ (placed.map fun field => (⟨field.ordinal, field.ty.index⟩ : Field)) = fields
      ∧ FieldsPlaced records st.cursor placed st'.cursor
      ∧ (st.alignment.isPowerOfTwo → st'.alignment.isPowerOfTwo)
      ∧ (st'.needsDrop = false ↔ st.needsDrop = false
        ∧ ∀ field ∈ placed, ∀ inner, records field.ty.index = some inner → inner.dropKind = 0)
      ∧ ∀ field ∈ placed, (records field.ty.index).isSome := by
  induction fields generalizing st with
  | nil =>
    rw [foldlM_nil, pure_eq_ok] at h
    subst h
    exact ⟨[], by simp, rfl, rfl, id, by simp, by simp⟩
  | cons field fields ih =>
    rw [foldlM_cons, bind_eq_ok] at h
    obtain ⟨mid, hmid, h⟩ := h
    unfold placeField at hmid
    split at hmid
    · cases hmid
    next child hchild =>
    obtain ⟨hid, hpower⟩ := hstored _ _ hchild
    simp only [bind_eq_ok, orOverflow_eq_ok] at hmid
    obtain ⟨offset, hoffset, next, hnext, hmid⟩ := hmid
    split at hmid
    · cases hmid
    cases hmid
    obtain ⟨placed, hfields, hraw, hplaced, halignment, hdrop, hresolved⟩ := ih h
    have hindex : child.id.index = field.ty := by rw [hid]
    refine ⟨⟨field.ordinal, child.id, offset⟩ :: placed, ?_, ?_, ?_, ?_, ?_, ?_⟩
    · rw [hfields]
      simp
    · simp [hraw, hindex]
    · refine ⟨child, by rw [hindex]; exact hchild, firstAligned_of_checkedAlignUp hoffset, ?_⟩
      rw [checkedStorageAdd_eq_some hnext] at hplaced
      exact hplaced
    · exact fun hst => halignment (isPowerOfTwo_max hst hpower)
    · rw [hdrop]
      simp only [Bool.or_eq_false_iff, decide_eq_false_iff_not, not_not, forall_mem_cons,
        hindex, hchild, Option.some.injEq, forall_eq', and_assoc]
    · simpa [hindex, hchild] using hresolved

theorem placeVariant_foldlM (hstored : Stored universeIdentity records) {variants : List Variant}
    {st st' : EnumState} (h : variants.foldlM (placeVariant records) st = .ok st') :
    ∃ placed, st'.variants = st.variants ++ placed
      ∧ (placed.map fun variant =>
        (⟨variant.ordinal, variant.payload.map TypeId.index⟩ : Variant)) = variants
      ∧ st.payloadAlignment ≤ st'.payloadAlignment ∧ st.payloadSize ≤ st'.payloadSize
      ∧ (st.payloadAlignment.isPowerOfTwo → st'.payloadAlignment.isPowerOfTwo)
      ∧ (∀ variant ∈ placed, ∀ payload, variant.payload = some payload →
        ∃ child, records payload.index = some child ∧ child.alignment.isPowerOfTwo
          ∧ child.alignment ≤ st'.payloadAlignment ∧ child.size ≤ st'.payloadSize)
      ∧ (st'.needsDrop = false ↔ st.needsDrop = false
        ∧ ∀ variant ∈ placed, ∀ payload, variant.payload = some payload →
          ∀ inner, records payload.index = some inner → inner.dropKind = 0) := by
  induction variants generalizing st with
  | nil =>
    rw [foldlM_nil, pure_eq_ok] at h
    subst h
    exact ⟨[], by simp, rfl, le_rfl, le_rfl, id, by simp, by simp⟩
  | cons variant variants ih =>
    rw [foldlM_cons, bind_eq_ok] at h
    obtain ⟨mid, hmid, h⟩ := h
    unfold placeVariant at hmid
    split at hmid
    · next hnone =>
      cases hmid
      obtain ⟨placed, hvariants, hraw, hle, hsize, hpower, hinside, hdrop⟩ := ih h
      refine ⟨⟨variant.ordinal, none⟩ :: placed, ?_, ?_, hle, hsize, hpower, ?_, ?_⟩
      · rw [hvariants]
        simp
      · obtain ⟨ordinal, payload⟩ := variant
        simp_all
      · simpa using hinside
      · simpa using hdrop
    · next payload hpayload =>
      split at hmid
      · cases hmid
      next child hchild =>
      cases hmid
      obtain ⟨hid, hchildPower⟩ := hstored _ _ hchild
      have hindex : child.id.index = payload := by rw [hid]
      obtain ⟨placed, hvariants, hraw, hle, hsize, hpower, hinside, hdrop⟩ := ih h
      dsimp only at hle hsize
      refine ⟨⟨variant.ordinal, some child.id⟩ :: placed, ?_, ?_, by omega, by omega,
        fun hst => hpower (isPowerOfTwo_max hst hchildPower), ?_, ?_⟩
      · rw [hvariants]
        simp
      · obtain ⟨ordinal, payload'⟩ := variant
        simp_all
      · rw [forall_mem_cons]
        refine ⟨fun p hp => ?_, hinside⟩
        cases hp
        exact ⟨child, by rw [hindex]; exact hchild, hchildPower, by omega, by omega⟩
      · rw [hdrop]
        simp only [Bool.or_eq_false_iff, decide_eq_false_iff_not, not_not, forall_mem_cons,
          Option.some.injEq, forall_eq', hindex, hchild, and_assoc]

variable {index : ℕ} {record : LayoutRecord}

/-- A record without by-value children is sound when its numbers are. -/
theorem localSound_leaf {types : List TypeNode} {node : TypeNode}
    (hnode : types[index]? = some node)
    (hid : record.id = ⟨universeIdentity, index⟩) (hkind : record.kind.raw = node.kind)
    (hpower : record.alignment.isPowerOfTwo) (hle : record.alignment ≤ 8)
    (hdvd : record.alignment ∣ record.size) (hsize : record.size ≤ maxObjectSize)
    (hinside : KindSound records record) (hchildren : record.kind.byValueChildren = [])
    (hdrop : record.dropKind = 0 ↔ record.kind.isResource = false) :
    LocalSound types universeIdentity records index record where
  id_eq := hid
  kind_eq := by rw [hnode, map_some, hkind]
  power := hpower
  alignment_le := hle
  dvd := hdvd
  size_le := hsize
  inside := hinside
  dropKind_eq_zero := by simp [hchildren, hdrop]
  resolved := by simp [hchildren]

theorem recordOf_sound (hstored : Stored universeIdentity records) {target : StorageTarget}
    {types : List TypeNode} {node : TypeNode} (hnode : types[index]? = some node)
    (h : recordOf universeIdentity target records index node = .ok record)
    (hpower : record.alignment.isPowerOfTwo) (hle : record.alignment ≤ 8)
    (hsize : record.size ≤ maxObjectSize) :
    LocalSound types universeIdentity records index record := by
  have hword : (wordLayout target).2 ∣ (wordLayout target).1 * 3
      ∧ (wordLayout target).2 ∣ (wordLayout target).1 := by
    cases target <;> decide
  obtain ⟨id, span, kind⟩ := node
  unfold recordOf at h
  dsimp only at h
  cases kind with
  | bool =>
    cases h
    exact localSound_leaf hnode rfl rfl hpower hle (dvd_refl _) hsize trivial rfl
      (by simp [VerifiedKind.isResource])
  | i32 =>
    cases h
    exact localSound_leaf hnode rfl rfl hpower hle (dvd_refl _) hsize trivial rfl
      (by simp [VerifiedKind.isResource])
  | string =>
    cases h
    exact localSound_leaf hnode rfl rfl hpower hle hword.1 hsize trivial rfl
      (by simp [VerifiedKind.isResource])
  | shared payload =>
    cases h
    exact localSound_leaf hnode rfl rfl hpower hle hword.2 hsize trivial rfl
      (by simp [VerifiedKind.isResource])
  | weak payload =>
    cases h
    exact localSound_leaf hnode rfl rfl hpower hle hword.2 hsize trivial rfl
      (by simp [VerifiedKind.isResource])
  | borrow referent => cases h
  | vec element =>
    dsimp only at h
    split at h
    · cases h
    · cases h
      exact localSound_leaf hnode rfl rfl hpower hle hword.1 hsize trivial rfl
        (by simp [VerifiedKind.isResource])
  | struct module declaration fields =>
    simp only [bind_eq_ok, orOverflow_eq_ok] at h
    obtain ⟨st, hfields, size, halign, hrecord⟩ := h
    cases hrecord
    obtain ⟨placed, heq, hraw, hplaced, -, hdrop, hresolved⟩ := placeField_foldlM hstored hfields
    rw [show ({} : StructState).fields = [] from rfl, nil_append] at heq
    obtain ⟨⟨hstop, hdvd⟩, -⟩ := firstAligned_of_checkedAlignUp halign
    refine ⟨rfl, ?_, hpower, hle, hdvd, hsize, ⟨st.cursor, hstop, heq ▸ hplaced⟩, ?_, ?_⟩
    · rw [hnode, map_some]
      simp only [VerifiedKind.raw, heq, hraw]
    · simp [hdrop, VerifiedKind.isResource, VerifiedKind.byValueChildren, heq]
    · simpa [VerifiedKind.byValueChildren, heq] using hresolved
  | enum module declaration variants =>
    simp only [bind_eq_ok, orOverflow_eq_ok] at h
    obtain ⟨st, hvariants, payloadOffset, hoffset, stop, hstop, size, halign, h⟩ := h
    split at h
    · cases h
    cases h
    obtain ⟨placed, heq, hraw, -, -, hpayload, hinside, hdrop⟩ :=
      placeVariant_foldlM hstored hvariants
    rw [show ({} : EnumState).variants = [] from rfl, nil_append] at heq
    obtain ⟨⟨hfour, hpayloadDvd⟩, -⟩ := firstAligned_of_checkedAlignUp hoffset
    obtain ⟨⟨hend, hdvd⟩, -⟩ := firstAligned_of_checkedAlignUp halign
    rw [checkedStorageAdd_eq_some hstop] at hend
    have hpayloadPower := hpayload ⟨0, rfl⟩
    refine ⟨rfl, ?_, hpower, hle, hdvd, hsize, ⟨hfour, hend, fun variant hvariant payload hp => ?_⟩,
      ?_, ?_⟩
    · rw [hnode, map_some]
      simp only [VerifiedKind.raw, heq, hraw]
    · obtain ⟨child, hchild, hchildPower, hchildLe, hchildSize⟩ :=
        hinside variant (heq ▸ hvariant) payload hp
      exact ⟨child, hchild,
        (dvd_of_isPowerOfTwo hchildPower hpayloadPower hchildLe).trans hpayloadDvd, hchildSize⟩
    · simp only [Bool.toNat_eq_zero, hdrop, VerifiedKind.isResource, VerifiedKind.byValueChildren, heq,
        true_and, mem_filterMap, map_eq_some_iff]
      constructor
      · rintro hall child ⟨variant, hvariant, payload, hp, rfl⟩ inner hinner
        exact hall variant hvariant payload hp inner hinner
      · intro hall variant hvariant payload hp inner hinner
        exact hall payload.index ⟨variant, hvariant, payload, hp, rfl⟩ inner hinner
    · intro child hchild
      simp only [VerifiedKind.byValueChildren, heq, mem_filterMap,
        map_eq_some_iff] at hchild
      obtain ⟨variant, hvariant, payload, hp, rfl⟩ := hchild
      obtain ⟨inner, hinner, -⟩ := hinside variant hvariant payload hp
      rw [hinner]
      rfl
  | fixedArray element length =>
    dsimp only at h
    split at h
    · cases h
    next child hchild =>
    simp only [bind_eq_ok, orOverflow_eq_ok] at h
    obtain ⟨stride, hstride, size, hmul, h⟩ := h
    split at h
    · cases h
    cases h
    obtain ⟨hid, -⟩ := hstored _ _ hchild
    have hindex : child.id.index = element := by rw [hid]
    have haligned := firstAligned_of_checkedAlignUp hstride
    have hsizeEq := checkedStorageMul_eq_some hmul
    refine ⟨rfl, ?_, hpower, hle, ?_, hsize, ⟨child, by rw [hindex]; exact hchild, haligned, hsizeEq⟩,
      ?_, ?_⟩
    · rw [hnode, map_some]
      simp only [VerifiedKind.raw, hindex]
    · rw [hsizeEq]
      exact haligned.1.2.mul_right length
    · simp [VerifiedKind.isResource, VerifiedKind.byValueChildren, hindex, hchild]
    · simp [VerifiedKind.byValueChildren, hindex, hchild]

end RecordOf

/-! ### The recursion -/

section Recursion

variable {types : List TypeNode} {universeIdentity : List ℕ} {target : StorageTarget}
  {records records' : ℕ → Option LayoutRecord} {index fuel : ℕ}

section

variable (hext : ∀ i record, records i = some record → records' i = some record)

include hext

theorem FieldsPlaced.mono
    {fields : List VerifiedField} {start stop : ℕ} (h : FieldsPlaced records start fields stop) :
    FieldsPlaced records' start fields stop := by
  induction fields generalizing start with
  | nil => exact h
  | cons field fields ih =>
    obtain ⟨child, hchild, haligned, hrest⟩ := h
    exact ⟨child, hext _ _ hchild, haligned, ih hrest⟩

theorem KindSound.mono
    {record : LayoutRecord} (h : KindSound records record) : KindSound records' record := by
  unfold KindSound at h ⊢
  split at h
  · obtain ⟨stop, hstop, hplaced⟩ := h
    exact ⟨stop, hstop, hplaced.mono hext⟩
  · obtain ⟨hfour, hend, hinside⟩ := h
    refine ⟨hfour, hend, fun variant hvariant payload hp => ?_⟩
    obtain ⟨child, hchild, hrest⟩ := hinside variant hvariant payload hp
    exact ⟨child, hext _ _ hchild, hrest⟩
  · obtain ⟨child, hchild, hrest⟩ := h
    exact ⟨child, hext _ _ hchild, hrest⟩
  · trivial

/-- Sound records stay sound when records are added. -/
theorem LocalSound.mono
    {record : LayoutRecord} (h : LocalSound types universeIdentity records index record) :
    LocalSound types universeIdentity records' index record where
  id_eq := h.id_eq
  kind_eq := h.kind_eq
  power := h.power
  alignment_le := h.alignment_le
  dvd := h.dvd
  size_le := h.size_le
  inside := h.inside.mono hext
  dropKind_eq_zero := by
    rw [h.dropKind_eq_zero]
    refine and_congr_right fun _ => forall₂_congr fun child hchild => ?_
    obtain ⟨inner, hinner⟩ := isSome_iff_exists.mp (h.resolved child hchild)
    rw [hinner, hext _ _ hinner]
  resolved := by
    intro child hchild
    obtain ⟨inner, hinner⟩ := isSome_iff_exists.mp (h.resolved child hchild)
    rw [hext _ _ hinner]
    rfl

end

/-- What holds of the stored records: they are sound, and no type stores itself. -/
structure RecordsInv (types : List TypeNode) (universeIdentity : List ℕ)
    (records : ℕ → Option LayoutRecord) : Prop where
  sound : ∀ i record, records i = some record →
    LocalSound types universeIdentity records i record
  ranked : ∃ rank : ℕ → ℕ, ∀ i record, records i = some record →
    ∀ child ∈ record.kind.byValueChildren, rank child < rank i

theorem RecordsInv.stored
    (h : RecordsInv types universeIdentity records) : Stored universeIdentity records :=
  fun i record hrecord => ⟨(h.sound i record hrecord).id_eq, (h.sound i record hrecord).power⟩

/-- A new sound record. -/
theorem RecordsInv.store
    (h : RecordsInv types universeIdentity records) (hnone : records index = none)
    {record : LayoutRecord} (hrecord : LocalSound types universeIdentity records index record) :
    RecordsInv types universeIdentity (Function.update records index (some record)) := by
  have hne {i : ℕ} (hi : (records i).isSome) : i ≠ index := by
    rintro rfl
    rw [hnone] at hi
    cases hi
  have hext : ∀ i inner, records i = some inner →
      Function.update records index (some record) i = some inner := by
    intro i inner hi
    rw [Function.update_of_ne (hne (by rw [hi]; rfl)), hi]
  have hcases {i : ℕ} {inner : LayoutRecord}
      (hi : Function.update records index (some record) i = some inner) :
      i = index ∧ inner = record ∨ records i = some inner := by
    by_cases hindex : i = index
    · subst hindex
      rw [Function.update_self, Option.some.injEq] at hi
      exact .inl ⟨rfl, hi.symm⟩
    · rw [Function.update_of_ne hindex] at hi
      exact .inr hi
  refine ⟨fun i inner hi => ?_, ?_⟩
  · obtain ⟨rfl, rfl⟩ | hi := hcases hi
    · exact hrecord.mono hext
    · exact (h.sound i inner hi).mono hext
  · obtain ⟨rank, hrank⟩ := h.ranked
    -- the new type is ranked above its children, which are other types
    refine ⟨Function.update rank index
      ((record.kind.byValueChildren.map rank).foldr max 0 + 1), fun i inner hi child hchild => ?_⟩
    obtain ⟨rfl, rfl⟩ | hi := hcases hi
    · rw [Function.update_self, Function.update_of_ne (hne (hrecord.resolved child hchild))]
      exact Nat.lt_succ_of_le (le_max_of_le' 0 (mem_map_of_mem hchild) le_rfl)
    · rw [Function.update_of_ne (hne ((h.sound i inner hi).resolved child hchild)),
        Function.update_of_ne (hne (by rw [hi]; rfl))]
      exact hrank i inner hi child hchild

/-- What a call does to the state. -/
structure Computes (types : List TypeNode) (universeIdentity : List ℕ) (st st' : RecordState) :
    Prop where
  visiting : st'.visiting = st.visiting
  kept : ∀ i, st.visiting i = true → st'.records i = st.records i
  inv : RecordsInv types universeIdentity st.records →
    RecordsInv types universeIdentity st'.records

theorem Computes.refl (st : RecordState) : Computes types universeIdentity st st :=
  ⟨rfl, fun _ _ => rfl, id⟩

variable {st st' : RecordState}

theorem Computes.trans {st'' : RecordState} (h : Computes types universeIdentity st st')
    (h' : Computes types universeIdentity st' st'') : Computes types universeIdentity st st'' where
  visiting := h'.visiting.trans h.visiting
  kept i hi := (h'.kept i (h.visiting ▸ hi)).trans (h.kept i hi)
  inv hinv := h'.inv (h.inv hinv)

theorem computeOne_computes (fuel i : ℕ) (st st' : RecordState)
    (h : computeOne types universeIdentity target fuel i st = .done st') :
    Computes types universeIdentity st st' := by
  induction fuel generalizing i st st' with
  | zero => cases h
  | succ fuel ih =>
    unfold computeOne at h
    split at h
    · cases h
      exact .refl st
    next hguard =>
    rw [not_or, not_isSome_iff_eq_none, Bool.not_eq_true] at hguard
    obtain ⟨hnone, hvisiting⟩ := hguard
    split at h
    · cases h
    next node hnode =>
    obtain ⟨mid, hmid, h⟩ := Outcome.bind_eq_done.mp h
    have hchildren := Outcome.foldlM_rel Computes.refl .trans ih hmid
    have hmidNone : mid.records i = none :=
      (hchildren.kept i (by simp [RecordState.visit])).trans hnone
    -- leaving the type restores the flags
    have hleave : Function.update mid.visiting i false = st.visiting := by
      rw [hchildren.visiting]
      simp only [RecordState.visit, Function.update_idem]
      rw [← hvisiting, Function.update_eq_self]
    have hother {j : ℕ} (hj : st.visiting j = true) : j ≠ i := by
      rintro rfl
      rw [hvisiting] at hj
      cases hj
    have hkept (j : ℕ) (hj : st.visiting j = true) : mid.records j = st.records j :=
      hchildren.kept j (by simpa [RecordState.visit, hother hj] using hj)
    split at h
    · cases h
      exact ⟨hleave, hkept, hchildren.inv⟩
    · obtain ⟨settled, hsettled, h⟩ := Outcome.bind_eq_done.mp h
      cases h
      unfold RecordState.settle at hsettled
      split at hsettled
      · next record hrecord =>
        split at hsettled
        · cases hsettled
          exact ⟨hleave, hkept, hchildren.inv⟩
        · next hlimits =>
          simp only [not_or, not_not, Nat.not_lt] at hlimits
          obtain ⟨-, hpower, hle, hsize⟩ := hlimits
          cases hsettled
          refine ⟨hleave, fun j hj => ?_, fun hinv => ?_⟩
          · simp only [RecordState.visit, RecordState.store, Function.update_of_ne (hother hj)]
            exact hkept j hj
          · have hinv' := hchildren.inv hinv
            exact hinv'.store hmidNone
              (recordOf_sound hinv'.stored hnode hrecord hpower hle hsize)
      · cases hsettled
        exact ⟨hleave, hkept, hchildren.inv⟩
      · cases hsettled
        exact ⟨hleave, hkept, hchildren.inv⟩
      · cases hsettled

/-- Types whose computation has not begun. -/
def unvisited (types : List TypeNode) (visiting : ℕ → Bool) : ℕ :=
  ((Finset.range types.length).filter fun i => visiting i = false).card

theorem unvisited_visit {visiting : ℕ → Bool} {i : ℕ} (hi : i < types.length)
    (hnot : visiting i = false) :
    unvisited types (Function.update visiting i true) < unvisited types visiting := by
  refine Finset.card_lt_card (Finset.ssubset_iff_of_subset (fun j hj => ?_) |>.mpr ⟨i, ?_, ?_⟩)
  · obtain ⟨hlt, hj⟩ := Finset.mem_filter.mp hj
    refine Finset.mem_filter.mpr ⟨hlt, ?_⟩
    by_cases hji : j = i
    · subst hji
      simp at hj
    · simpa [hji] using hj
  · exact Finset.mem_filter.mpr ⟨Finset.mem_range.mpr hi, hnot⟩
  · simp

/-- One round more than there are types left is enough fuel. -/
theorem computeOne_ne_timeout (i : ℕ) (st : RecordState)
    (hfuel : unvisited types st.visiting < fuel) :
    computeOne types universeIdentity target fuel i st ≠ .timeout := by
  induction fuel generalizing i st with
  | zero => exact absurd hfuel (Nat.not_lt_zero _)
  | succ fuel ih =>
    unfold computeOne
    split
    · simp
    next hguard =>
    simp only [not_or, Bool.not_eq_true] at hguard
    split
    · simp
    next node hnode =>
    have hlt : unvisited types (st.visit i true).visiting < fuel :=
      Nat.lt_of_lt_of_le
        (unvisited_visit (List.getElem?_eq_some_iff.mp hnode).1 hguard.2) (Nat.lt_succ_iff.mp hfuel)
    intro htimeout
    obtain hfold | ⟨mid, -, hrest⟩ := Outcome.bind_eq_timeout.mp htimeout
    · -- the flags are the same whenever a child is computed
      generalize st.visit i true = entered at hlt hfold
      generalize node.kind.byValueChildren = children at hfold
      induction children generalizing entered with
      | nil => cases hfold
      | cons child children ihChildren =>
        rw [foldlM_cons, Outcome.bind_eq_timeout] at hfold
        obtain hchild | ⟨next, hnext, hfold⟩ := hfold
        · exact ih child entered hlt hchild
        · refine ihChildren next ?_ hfold
          rwa [(computeOne_computes _ _ _ _ hnext).visiting]
    · split at hrest
      · cases hrest
      · obtain hsettle | ⟨settled, -, hrest⟩ := Outcome.bind_eq_timeout.mp hrest
        · unfold RecordState.settle at hsettle
          split at hsettle
          · split at hsettle <;> cases hsettle
          all_goals cases hsettle
        · cases hrest

end Recursion

/-! ### All records -/

section Records

variable {types : List TypeNode} {universeIdentity : List ℕ} {target : StorageTarget}

/-- The pass never runs out of fuel. -/
theorem computeRecords_ne_timeout : computeRecords types universeIdentity target ≠ .timeout := by
  unfold computeRecords
  intro htimeout
  obtain hfold | ⟨st, -, hrest⟩ := Outcome.bind_eq_timeout.mp htimeout
  · have hcount (visiting : ℕ → Bool) : unvisited types visiting < types.length + 1 := by
      refine Nat.lt_succ_of_le ((Finset.card_filter_le _ _).trans ?_)
      rw [Finset.card_range]
    generalize (⟨fun _ => none, fun _ => false, []⟩ : RecordState) = st at hfold
    generalize List.range types.length = order at hfold
    induction order generalizing st with
    | nil => cases hfold
    | cons i order ih =>
      rw [foldlM_cons, Outcome.bind_eq_timeout] at hfold
      obtain hone | ⟨next, -, hfold⟩ := hfold
      · exact computeOne_ne_timeout i st (hcount _) hone
      · exact ih next hfold
  · split at hrest
    · split at hrest <;> cases hrest
    · cases hrest

/-- The records of an accepted pass: one for every type, sound, ranked by what they store, and
without a `Vec` of elements of no size. -/
theorem computeRecords_sound {records : List LayoutRecord}
    (h : computeRecords types universeIdentity target = .done (.ok records)) :
    records.length = types.length
      ∧ RecordsInv types universeIdentity (fun i => records[i]?)
      ∧ ∀ record ∈ records, zeroSizedElement records record = none := by
  unfold computeRecords at h
  obtain ⟨st, hfold, h⟩ := Outcome.bind_eq_done.mp h
  have hinv : RecordsInv types universeIdentity st.records := by
    refine (Outcome.foldlM_rel Computes.refl .trans (computeOne_computes _) hfold).inv ⟨?_, id, ?_⟩
    · intro i record hi
      cases hi
    · intro i record hi
      cases hi
  split at h
  · next records' hrecords =>
    split at h
    · next hzero =>
      cases h
      obtain ⟨hlength, hget⟩ := mapM_eq_some.mp hrecords
      rw [length_range] at hlength
      have heq : st.records = fun i => records[i]? := by
        funext i
        by_cases hi : i < types.length
        · exact hget i i (by simp [hi])
        · rw [getElem?_eq_none (by omega)]
          -- a stored record belongs to a type
          cases hrecord : st.records i with
          | none => rfl
          | some record =>
            have hkind := (hinv.sound i record hrecord).kind_eq
            rw [getElem?_eq_none (by omega)] at hkind
            cases hkind
      exact ⟨hlength, heq ▸ hinv, findSome?_eq_none_iff.mp hzero⟩
    · cases h
  · cases h

end Records

end Zryna.Layout.Aggregate
