import Zryna.Layout.Records

/-!
# The sealed layout document

The last pass of the aggregate layout verifier writes the records of a target as bytes, takes the
fingerprint, and reads the bytes back against the records before it trusts them. `auditDocument` is
that reader; the input after its cursor is passed on. `sealTarget_eq` says that the audit never
fails when the numbers of the records fit their fields.
-/

namespace Zryna.Layout.Aggregate

open List Option

/-! ### Writing -/

def fingerprintDomain : List ℕ := asciiBytes "ZRYNA-AGGREGATE-LAYOUT-V1" ++ [0]

def targetTag : StorageTarget → ℕ
  | .linear32V1 => 1
  | .linuxX8664V1 => 2

def recordTag : VerifiedKind → ℕ
  | .bool => 1
  | .i32 => 2
  | .struct .. => 3
  | .enum .. => 4
  | .fixedArray .. => 5
  | .string => 6
  | .vec _ => 7
  | .shared _ => 8
  | .weak _ => 9

def payloadIndex (variant : VerifiedVariant) : ℕ :=
  (variant.payload.map TypeId.index).getD noPayloadTypeId

def encodeField (field : VerifiedField) : List ℕ :=
  leBytes 4 field.ordinal ++ leBytes 4 field.ty.index ++ leBytes 8 field.offset

def encodeVariant (variant : VerifiedVariant) : List ℕ :=
  leBytes 4 variant.ordinal ++ leBytes 4 (payloadIndex variant)

/-- What a kind adds to the document. Member counts fit `u32`. -/
def encodeKind : VerifiedKind → List ℕ
  | .bool | .i32 | .string => []
  | .struct module declaration fields =>
    leBytes 4 module ++ leBytes 4 declaration ++ leBytes 4 fields.length
      ++ fields.flatMap encodeField
  | .enum module declaration variants payloadOffset payloadSize =>
    leBytes 4 module ++ leBytes 4 declaration ++ leBytes 4 variants.length
      ++ leBytes 8 payloadOffset ++ leBytes 8 payloadSize ++ variants.flatMap encodeVariant
  | .fixedArray element length stride =>
    leBytes 4 element.index ++ leBytes 8 length ++ leBytes 8 stride
  | .vec element => leBytes 4 element.index
  | .shared payload | .weak payload => leBytes 4 payload.index

def encodeRecord (record : LayoutRecord) : List ℕ :=
  leBytes 4 (recordTag record.kind) ++ leBytes 4 record.id.index ++ leBytes 4 record.dropKind
    ++ leBytes 4 record.runtimeKind ++ leBytes 8 record.size ++ leBytes 8 record.alignment
    ++ encodeKind record.kind

/-- A record behind its length. -/
def entryBytes (record : LayoutRecord) : List ℕ :=
  leBytes 4 (encodeRecord record).length ++ encodeRecord record

def encodeEntry (record : LayoutRecord) : Except Diagnostic (List ℕ) :=
  if (encodeRecord record).length < 2 ^ 32 then .ok (entryBytes record)
  else .error (limitError "sealed record byte length" (2 ^ 32 - 1))

def encodeDocument (target : StorageTarget) (records : List LayoutRecord) :
    Except Diagnostic (List ℕ) :=
  if records.length < 2 ^ 32 then do
    let entries ← records.mapM encodeEntry
    pure (fingerprintDomain ++ leBytes 4 (targetTag target) ++ leBytes 4 records.length
      ++ entries.flatten)
  else .error (limitError "sealed record count" (2 ^ 32 - 1))

/-! ### Reading -/

/-- The input after the expected bytes. -/
def takeExact (expected input : List ℕ) : Option (List ℕ) :=
  if input.take expected.length = expected then some (input.drop expected.length) else none

/-- The input after an integer with the expected value. -/
def expectLe (width value : ℕ) (input : List ℕ) : Option (List ℕ) :=
  (takeLe width input).bind fun (read, rest) => if read = value then some rest else none

def auditField (input : List ℕ) (field : VerifiedField) : Option (List ℕ) := do
  let input ← expectLe 4 field.ordinal input
  let input ← expectLe 4 field.ty.index input
  expectLe 8 field.offset input

def auditVariant (input : List ℕ) (variant : VerifiedVariant) : Option (List ℕ) := do
  let input ← expectLe 4 variant.ordinal input
  expectLe 4 (payloadIndex variant) input

def auditRecordPayload (kind : VerifiedKind) (input : List ℕ) : Option (List ℕ) :=
  match kind with
  | .bool | .i32 | .string => some input
  | .struct module declaration fields => do
    let input ← expectLe 4 module input
    let input ← expectLe 4 declaration input
    let input ← expectLe 4 fields.length input
    fields.foldlM auditField input
  | .enum module declaration variants payloadOffset payloadSize => do
    let input ← expectLe 4 module input
    let input ← expectLe 4 declaration input
    let input ← expectLe 4 variants.length input
    let input ← expectLe 8 payloadOffset input
    let input ← expectLe 8 payloadSize input
    variants.foldlM auditVariant input
  | .fixedArray element length stride => do
    let input ← expectLe 4 element.index input
    let input ← expectLe 8 length input
    expectLe 8 stride input
  | .vec element => expectLe 4 element.index input
  | .shared payload | .weak payload => expectLe 4 payload.index input

/-- The input after a record that is the expected one, and that ends where its length says. -/
def auditRecord (input : List ℕ) (entry : LayoutRecord × ℕ) : Option (List ℕ) := do
  let (expected, expectedId) := entry
  let (payloadLength, input) ← takeLe 4 input
  if payloadLength < 32 ∨ input.length < payloadLength then none
  else do
    let rest := input.length - payloadLength
    let input ← expectLe 4 (recordTag expected.kind) input
    let input ← expectLe 4 expectedId input
    let input ← expectLe 4 expected.dropKind input
    let input ← expectLe 4 expected.runtimeKind input
    let input ← expectLe 8 expected.size input
    let input ← expectLe 8 expected.alignment input
    let input ← auditRecordPayload expected.kind input
    if input.length = rest then some input else none

section Seal

variable (sha256 : List ℕ → List ℕ)

def auditDocument (bytes : List ℕ) (target : StorageTarget) (expectedRecords : List LayoutRecord)
    (expectedFingerprint : List ℕ) : Bool :=
  (do
    let input ← takeExact fingerprintDomain bytes
    let input ← expectLe 4 (targetTag target) input
    let input ← expectLe 4 expectedRecords.length input
    expectedRecords.zipIdx.foldlM auditRecord input) = some []
    ∧ sha256 bytes = expectedFingerprint

/-- The fingerprint of the records of one target. -/
def sealTarget (target : StorageTarget) (records : List LayoutRecord) :
    Except Diagnostic (List ℕ) := do
  let bytes ← encodeDocument target records
  let fingerprint := sha256 bytes
  if auditDocument sha256 bytes target records fingerprint then pure fingerprint
  else .error (globalError "ZRYNA-L3006"
    "sealed layout document, target, or fingerprint is inconsistent"
    "discard the snapshot and rebuild it through the aggregate layout authority")

end Seal

/-! ### The audit of a written document -/

/-- The numbers of a kind fit their fields. -/
def KindFits : VerifiedKind → Prop
  | .bool | .i32 | .string => True
  | .struct module declaration fields => module < 2 ^ 32 ∧ declaration < 2 ^ 32
    ∧ fields.length < 2 ^ 32
    ∧ ∀ field ∈ fields, field.ordinal < 2 ^ 32 ∧ field.ty.index < 2 ^ 32 ∧ field.offset < 2 ^ 64
  | .enum module declaration variants payloadOffset payloadSize => module < 2 ^ 32
    ∧ declaration < 2 ^ 32 ∧ variants.length < 2 ^ 32 ∧ payloadOffset < 2 ^ 64
    ∧ payloadSize < 2 ^ 64
    ∧ ∀ variant ∈ variants, variant.ordinal < 2 ^ 32 ∧ payloadIndex variant < 2 ^ 32
  | .fixedArray element length stride =>
    element.index < 2 ^ 32 ∧ length < 2 ^ 64 ∧ stride < 2 ^ 64
  | .vec element => element.index < 2 ^ 32
  | .shared payload | .weak payload => payload.index < 2 ^ 32

/-- The numbers of a record fit their fields, and so does its length. -/
structure RecordFits (index : ℕ) (record : LayoutRecord) : Prop where
  id_eq : record.id.index = index
  index_lt : index < 2 ^ 32
  dropKind_lt : record.dropKind < 2 ^ 32
  runtimeKind_lt : record.runtimeKind < 2 ^ 32
  size_lt : record.size < 2 ^ 64
  alignment_lt : record.alignment < 2 ^ 64
  kind : KindFits record.kind
  length_lt : (encodeRecord record).length < 2 ^ 32

theorem expectLe_leBytes {width value : ℕ} (h : value < 256 ^ width) (rest : List ℕ) :
    expectLe width value (leBytes width value ++ rest) = some rest := by
  unfold expectLe
  rw [takeLe_leBytes h]
  simp

theorem expectLe_four {value : ℕ} (h : value < 2 ^ 32) (rest : List ℕ) :
    expectLe 4 value (leBytes 4 value ++ rest) = some rest :=
  expectLe_leBytes h rest

theorem expectLe_eight {value : ℕ} (h : value < 2 ^ 64) (rest : List ℕ) :
    expectLe 8 value (leBytes 8 value ++ rest) = some rest :=
  expectLe_leBytes h rest

/-- Members that are written one after another are read one after another. -/
theorem foldlM_flatMap {α : Type} (read : List ℕ → α → Option (List ℕ)) (write : α → List ℕ)
    {members : List α}
    (h : ∀ member ∈ members, ∀ rest, read (write member ++ rest) member = some rest)
    (rest : List ℕ) : members.foldlM read (members.flatMap write ++ rest) = some rest := by
  induction members with
  | nil => rfl
  | cons member members ih =>
    rw [foldlM_cons, flatMap_cons, append_assoc, h member (by simp)]
    exact ih fun other hother => h other (by simp [hother])

theorem auditRecordPayload_encodeKind {kind : VerifiedKind} (h : KindFits kind) (rest : List ℕ) :
    auditRecordPayload kind (encodeKind kind ++ rest) = some rest := by
  cases kind with
  | bool => rfl
  | i32 => rfl
  | string => rfl
  | vec element => exact expectLe_four h rest
  | shared payload => exact expectLe_four h rest
  | weak payload => exact expectLe_four h rest
  | fixedArray element length stride =>
    obtain ⟨helement, hlength, hstride⟩ := h
    simp [auditRecordPayload, encodeKind, expectLe_four helement, expectLe_eight hlength,
      expectLe_eight hstride]
  | struct module declaration fields =>
    obtain ⟨hmodule, hdeclaration, hcount, hfields⟩ := h
    simp only [auditRecordPayload, encodeKind, append_assoc, expectLe_four hmodule,
      expectLe_four hdeclaration, expectLe_four hcount, bind_eq_bind, bind_some]
    refine foldlM_flatMap _ _ (fun field hfield rest => ?_) rest
    obtain ⟨hordinal, hty, hoffset⟩ := hfields field hfield
    simp [auditField, encodeField, expectLe_four hordinal, expectLe_four hty,
      expectLe_eight hoffset]
  | enum module declaration variants payloadOffset payloadSize =>
    obtain ⟨hmodule, hdeclaration, hcount, hoffset, hsize, hvariants⟩ := h
    simp only [auditRecordPayload, encodeKind, append_assoc, expectLe_four hmodule,
      expectLe_four hdeclaration, expectLe_four hcount, expectLe_eight hoffset,
      expectLe_eight hsize, bind_eq_bind, bind_some]
    refine foldlM_flatMap _ _ (fun variant hvariant rest => ?_) rest
    obtain ⟨hordinal, hpayload⟩ := hvariants variant hvariant
    simp [auditVariant, encodeVariant, expectLe_four hordinal, expectLe_four hpayload]

theorem recordTag_lt (kind : VerifiedKind) : recordTag kind < 2 ^ 32 := by
  cases kind <;> simp [recordTag]

theorem auditRecord_encodeRecord {index : ℕ} {record : LayoutRecord} (h : RecordFits index record)
    (rest : List ℕ) : auditRecord (entryBytes record ++ rest) (record, index) = some rest := by
  have hlong : ¬(encodeRecord record).length < 32 := by
    simp only [encodeRecord, length_append, length_leBytes]
    omega
  unfold auditRecord entryBytes
  dsimp only
  rw [append_assoc, takeLe_leBytes h.length_lt]
  simp only [bind_eq_bind, bind_some]
  rw [if_neg (by rw [length_append]; omega), length_append, Nat.add_sub_cancel_left]
  unfold encodeRecord
  simp only [append_assoc, expectLe_four (recordTag_lt record.kind), h.id_eq,
    expectLe_four h.index_lt, expectLe_four h.dropKind_lt, expectLe_four h.runtimeKind_lt,
    expectLe_eight h.size_lt, expectLe_eight h.alignment_lt, auditRecordPayload_encodeKind h.kind,
    bind_some, if_true]

theorem encodeDocument_eq (target : StorageTarget) {records : List LayoutRecord}
    (hcount : records.length < 2 ^ 32)
    (h : ∀ record ∈ records, (encodeRecord record).length < 2 ^ 32) :
    encodeDocument target records = .ok (fingerprintDomain ++ leBytes 4 (targetTag target)
      ++ leBytes 4 records.length ++ records.flatMap entryBytes) := by
  have hentries : records.mapM encodeEntry = .ok (records.map entryBytes) := by
    clear hcount
    induction records with
    | nil => rfl
    | cons record records ih =>
      rw [mapM_cons, ih fun other hother => h other (by simp [hother])]
      unfold encodeEntry
      rw [if_pos (h record (by simp))]
      rfl
  unfold encodeDocument
  rw [if_pos hcount, hentries, flatMap_def]
  rfl

/-- The audit accepts every document that was written from records whose numbers fit. -/
theorem sealTarget_eq (sha256 : List ℕ → List ℕ) (target : StorageTarget)
    {records : List LayoutRecord} (hcount : records.length < 2 ^ 32)
    (h : ∀ (i : ℕ) (record : LayoutRecord), records[i]? = some record → RecordFits i record) :
    ∃ bytes, encodeDocument target records = .ok bytes
      ∧ sealTarget sha256 target records = .ok (sha256 bytes) := by
  have hdocument := encodeDocument_eq target hcount fun record hrecord => by
    obtain ⟨i, hi⟩ := mem_iff_getElem?.mp hrecord
    exact (h i record hi).length_lt
  refine ⟨_, hdocument, ?_⟩
  have htag : targetTag target < 2 ^ 32 := by cases target <;> decide
  have hrecords : records.zipIdx.foldlM auditRecord (records.flatMap entryBytes) = some [] := by
    have hread := foldlM_flatMap auditRecord (fun entry => entryBytes entry.1)
      (fun entry hentry rest =>
        auditRecord_encodeRecord (h entry.2 entry.1 (mem_zipIdx_iff_getElem?.mp hentry)) rest)
      []
    rw [append_nil, ← flatMap_map Prod.fst entryBytes, zipIdx_map_fst] at hread
    exact hread
  have haudit : auditDocument sha256 (fingerprintDomain ++ leBytes 4 (targetTag target)
      ++ leBytes 4 records.length ++ records.flatMap entryBytes) target records
      (sha256 (fingerprintDomain ++ leBytes 4 (targetTag target) ++ leBytes 4 records.length
        ++ records.flatMap entryBytes)) = true := by
    unfold auditDocument takeExact
    simp only [append_assoc, take_left', drop_left', if_true, bind_eq_bind,
      bind_some, expectLe_four htag, expectLe_four hcount, hrecords]
    simp
  unfold sealTarget
  rw [hdocument]
  show (if _ then _ else _) = _
  rw [if_pos haudit]
  rfl

end Zryna.Layout.Aggregate
