import Zryna.Layout.NestedVecs

/-!
# Sound layouts

`Sound` says what a record of an accepted graph promises to the code generators: a representable,
aligned size, members that lie inside their record and are aligned for their own types, and a drop
kind that tells whether the type holds a resource.

`layout_sound`: every record of an accepted graph is sound, for both storage targets and whatever
the nesting of the types, and every node of the graph has a record that verifies it.
`verify_targets_agree`: the targets differ in storage only.
-/

namespace Zryna.Layout.Aggregate

open Raw List Option

/-! ### Sound records -/

section Sound

variable (records : List LayoutRecord)

/-- A type that holds a resource, itself or in what it stores by value. -/
inductive HoldsResource : ℕ → Prop
  | own {index : ℕ} {record : LayoutRecord} (h : records[index]? = some record)
    (hresource : record.kind.isResource = true) : HoldsResource index
  | stored {index child : ℕ} {record : LayoutRecord} (h : records[index]? = some record)
    (hchild : child ∈ record.kind.byValueChildren) (hholds : HoldsResource child) :
    HoldsResource index

def fieldOffset (fields : List VerifiedField) (i : ℕ) : ℕ :=
  ((fields[i]?).map VerifiedField.offset).getD 0

/-- Offsets at which the fields are aligned, each after the field before it. -/
def Arranged (fields : List VerifiedField) (offsets : ℕ → ℕ) : Prop :=
  ∀ i field, fields[i]? = some field → ∃ child, records[field.ty.index]? = some child
    ∧ child.alignment ∣ offsets i
    ∧ (i + 1 < fields.length → offsets i + child.size ≤ offsets (i + 1))

def MembersSound (record : LayoutRecord) : Prop :=
  match record.kind with
  | .struct _ _ fields => IsLeast {offsets | Arranged records fields offsets} (fieldOffset fields)
      ∧ ∀ field ∈ fields, ∃ child, records[field.ty.index]? = some child
        ∧ field.offset + child.size ≤ record.size
  | .enum _ _ variants payloadOffset payloadSize =>
    4 ≤ payloadOffset ∧ payloadOffset + payloadSize ≤ record.size
      ∧ ∀ variant ∈ variants, ∀ payload, variant.payload = some payload →
        ∃ child, records[payload.index]? = some child ∧ child.alignment ∣ payloadOffset
          ∧ child.size ≤ payloadSize
  | .fixedArray element length stride => ∃ child, records[element.index]? = some child
      ∧ FirstAligned child.size child.alignment stride ∧ record.size = stride * length
  | .vec element => ∃ child, records[element.index]? = some child ∧ child.size ≠ 0
  | _ => True

/-- What a record promises. -/
structure Sound (record : LayoutRecord) : Prop where
  power : record.alignment.isPowerOfTwo
  alignment_le : record.alignment ≤ 8
  dvd : record.alignment ∣ record.size
  size_le : record.size ≤ 2 ^ 32 - 1
  members : MembersSound records record
  drop : record.dropKind ≠ 0 ↔ HoldsResource records record.id.index

end Sound

section Records

variable {types : List TypeNode} {universeIdentity : List ℕ} {records : List LayoutRecord}

theorem RecordsInv.dropKind_iff
    (h : RecordsInv types universeIdentity (fun i => records[i]?)) {i : ℕ} {record : LayoutRecord}
    (hrecord : records[i]? = some record) : record.dropKind ≠ 0 ↔ HoldsResource records i := by
  constructor
  · obtain ⟨rank, hrank⟩ := h.ranked
    intro hdrop
    -- the induction is on the rank, which what is stored by value lowers
    induction hr : rank i using Nat.strong_induction_on generalizing i record with
    | _ r ih =>
      subst hr
      have hzero := (h.sound i record hrecord).dropKind_eq_zero
      cases hresource : record.kind.isResource with
      | true => exact .own hrecord hresource
      | false =>
        by_contra hnot
        refine hdrop (hzero.mpr ⟨hresource, fun child hchild inner hinner => ?_⟩)
        by_contra hinnerDrop
        refine hnot (.stored hrecord hchild ?_)
        exact ih (rank child) (hrank i record hrecord child hchild) hinner hinnerDrop rfl
  · intro hholds
    induction hholds generalizing record with
    | own hindex hresource =>
      rw [hrecord, Option.some.injEq] at hindex
      subst hindex
      intro hzero
      rw [((h.sound _ record hrecord).dropKind_eq_zero.mp hzero).1] at hresource
      cases hresource
    | stored hindex hchild _ ih =>
      rw [hrecord, Option.some.injEq] at hindex
      subst hindex
      obtain ⟨inner, hinner⟩ :=
        isSome_iff_exists.mp ((h.sound _ record hrecord).resolved _ hchild)
      intro hzero
      exact ih hinner (((h.sound _ record hrecord).dropKind_eq_zero.mp hzero).2 _ hchild inner hinner)

variable {fields : List VerifiedField} {start stop : ℕ}

theorem FieldsPlaced.start_le {lookup : ℕ → Option LayoutRecord}
    (h : FieldsPlaced lookup start fields stop) : start ≤ stop := by
  induction fields generalizing start with
  | nil => exact le_of_eq h
  | cons field fields ih =>
    obtain ⟨child, -, haligned, hrest⟩ := h
    calc start ≤ field.offset := haligned.1.1
      _ ≤ field.offset + child.size := Nat.le_add_right _ _
      _ ≤ stop := ih hrest

section

variable (h : FieldsPlaced (fun i => records[i]?) start fields stop)

include h

/-- Placed fields end before `stop`. -/
theorem FieldsPlaced.within :
    ∀ field ∈ fields, ∃ child, records[field.ty.index]? = some child
      ∧ field.offset + child.size ≤ stop := by
  induction fields generalizing start with
  | nil => simp
  | cons field fields ih =>
    obtain ⟨child, hchild, -, hrest⟩ := h
    rw [forall_mem_cons]
    exact ⟨⟨child, hchild, hrest.start_le⟩, ih hrest⟩

/-- Placed fields are aligned, each after the field before it. -/
theorem FieldsPlaced.arranged : Arranged records fields (fieldOffset fields) := by
  induction fields generalizing start with
  | nil => simp [Arranged]
  | cons field fields ih =>
    obtain ⟨child, hchild, haligned, hrest⟩ := h
    intro i
    cases i with
    | zero =>
      intro first hfirst
      cases hfirst
      refine ⟨child, hchild, haligned.1.2, fun hlength => ?_⟩
      cases fields with
      | nil => simp at hlength
      | cons next fields =>
        obtain ⟨nextChild, -, hnext, -⟩ := hrest
        exact hnext.1.1
    | succ i =>
      intro later hlater
      obtain ⟨laterChild, hlaterChild, hdvd, hnext⟩ := ih hrest i later hlater
      exact ⟨laterChild, hlaterChild, hdvd, fun hlength => hnext (Nat.succ_lt_succ_iff.mp hlength)⟩

/-- Other offsets for the fields are no smaller. -/
theorem FieldsPlaced.least {offsets : ℕ → ℕ}
    (hoffsets : Arranged records fields offsets) (hstart : start ≤ offsets 0) (i : ℕ) :
    fieldOffset fields i ≤ offsets i := by
  induction fields generalizing start offsets i with
  | nil => simp [fieldOffset]
  | cons field fields ih =>
    obtain ⟨child, hchild, haligned, hrest⟩ := h
    obtain ⟨child', hchild', hdvd, hnext⟩ := hoffsets 0 field rfl
    obtain rfl : child = child' := Option.some.inj (hchild.symm.trans hchild')
    have hfirst : field.offset ≤ offsets 0 := haligned.2 ⟨hstart, hdvd⟩
    cases i with
    | zero => exact hfirst
    | succ i =>
      cases fields with
      | nil => simp [fieldOffset]
      | cons next fields =>
        have hlater : Arranged records (next :: fields) fun i => offsets (i + 1) := by
          intro j later hj
          obtain ⟨laterChild, hlaterChild, hlaterDvd, hlaterNext⟩ := hoffsets (j + 1) later hj
          exact ⟨laterChild, hlaterChild, hlaterDvd,
            fun hlength => hlaterNext (Nat.succ_lt_succ hlength)⟩
        refine ih hrest hlater ?_ i
        calc field.offset + child.size ≤ offsets 0 + child.size := Nat.add_le_add_right hfirst _
          _ ≤ offsets 1 := hnext (by simp)

end

/-- Records that are sound one by one are sound together, once the elements of `Vec`s have a
size. -/
theorem RecordsInv.record_sound (h : RecordsInv types universeIdentity (fun i => records[i]?))
    (hvec : ∀ record ∈ records, ∀ element, record.kind = .vec element →
      ∃ child, records[element.index]? = some child ∧ child.size ≠ 0) :
    ∀ record ∈ records, Sound records record := by
  intro record hmem
  obtain ⟨i, hi⟩ := getElem?_of_mem hmem
  have hlocal := h.sound i record hi
  refine ⟨hlocal.power, hlocal.alignment_le, hlocal.dvd, hlocal.size_le, ?_, ?_⟩
  · have hinside := hlocal.inside
    unfold KindSound at hinside
    unfold MembersSound
    cases hkind : record.kind with
    | struct module declaration fields =>
      rw [hkind] at hinside
      obtain ⟨stop, hstop, hplaced⟩ := hinside
      refine ⟨⟨hplaced.arranged, fun offsets hoffsets i =>
        hplaced.least hoffsets (Nat.zero_le _) i⟩, fun field hfield => ?_⟩
      obtain ⟨child, hchild, hend⟩ := hplaced.within field hfield
      exact ⟨child, hchild, hend.trans hstop⟩
    | enum => rwa [hkind] at hinside
    | fixedArray => rwa [hkind] at hinside
    | vec element => exact hvec record hmem element hkind
    | _ => trivial
  · rw [hlocal.id_eq]
    exact h.dropKind_iff hi

end Records

/-! ### Accepted graphs -/

variable {graph : Graph} {sources : SourceMap}

theorem Admitted.vecElement_lt
    (h : Admitted graph sources) {node : TypeNode} (hnode : node ∈ graph.types) {element : ℕ}
    (hkind : node.kind = .vec element) : element < graph.types.length := by
  have hshape := h.shape node hnode
  simp only [verifyNodeShape, hkind, verifyContainer, Report.clean_pushIf, not_not] at hshape
  exact validRef_lt hshape

/-- The records of an accepted graph, for one target. -/
theorem computeRecords_record_sound (hadmitted : Admitted graph sources) {ordered : List ℕ}
    (hperm : ordered.Perm (List.range graph.types.length)) {universeIdentity : List ℕ}
    {target : StorageTarget} {records : List LayoutRecord}
    (h : computeRecords (canonicalTypes graph ordered) universeIdentity target
      = .done (.ok records)) :
    records.length = graph.types.length ∧ (∀ record ∈ records, Sound records record)
      ∧ ∀ i node, graph.types[i]? = some node → ∃ record,
        records[ordered.idxOf i]? = some record
          ∧ record.kind.raw = node.kind.rename ordered.idxOf := by
  have hmem (i : ℕ) : i ∈ ordered ↔ i < graph.types.length := by
    rw [hperm.mem_iff, mem_range]
  have htypes (k : ℕ) := getElem?_canonicalTypes (fun i hi => (hmem i).mp hi) k
  obtain ⟨hlength, hinv, hzero⟩ := computeRecords_sound h
  rw [length_canonicalTypes fun i hi => (hmem i).mp hi, hperm.length_eq, length_range]
    at hlength
  have hget {i : ℕ} (hi : i < graph.types.length) : ordered[ordered.idxOf i]? = some i :=
    getElem?_idxOf ((hmem i).mpr hi)
  refine ⟨hlength, hinv.record_sound fun record hrecord element hkind => ?_, fun i node hi => ?_⟩
  · obtain ⟨k, hk⟩ := getElem?_of_mem hrecord
    -- the element is a node of the graph, so it has a record
    have hraw := (hinv.sound k record hk).kind_eq
    rw [htypes, hkind] at hraw
    obtain ⟨node', hnode', hraw⟩ := map_eq_some_iff.mp hraw
    obtain ⟨index, -, hindex⟩ := bind_eq_some_iff.mp hnode'
    obtain ⟨node, hnode, rfl⟩ := map_eq_some_iff.mp hindex
    obtain ⟨e, hvec, he⟩ : ∃ e, node.kind = .vec e ∧ ordered.idxOf e = element.index := by
      rw [TypeNode.rename_kind] at hraw
      cases hnodeKind : node.kind <;>
        simp [hnodeKind, TypeKind.rename, VerifiedKind.raw] at hraw
      exact ⟨_, rfl, hraw⟩
    have helement : element.index < records.length := by
      rw [← he, hlength]
      exact (bijOn_idxOf hperm).mapsTo
        (hadmitted.vecElement_lt (mem_of_getElem? hnode) hvec)
    refine ⟨records[element.index], getElem?_eq_getElem helement, fun hsize => ?_⟩
    have hnone := hzero record hrecord
    simp [zeroSizedElement, hkind, getElem?_eq_getElem helement, hsize] at hnone
  · have hlt : i < graph.types.length := (List.getElem?_eq_some_iff.mp hi).1
    have hk : ordered.idxOf i < records.length :=
      hlength.symm ▸ (bijOn_idxOf hperm).mapsTo hlt
    have hraw := (hinv.sound _ _ (getElem?_eq_getElem hk)).kind_eq
    rw [htypes, hget hlt, bind_some, hi, map_some, map_some,
      Option.some.injEq] at hraw
    exact ⟨_, getElem?_eq_getElem hk, hraw.symm⟩

/-- The records of an accepted graph are sound for the target they are for, and every node has one:
under its `TypeId`, which no other node has, and of its kind. -/
theorem layout_sound (sha256 : List ℕ → List ℕ) (graph : Graph) (sources : SourceMap)
    (target : StorageTarget) (layouts : VerifiedLayouts)
    (h : verify sha256 graph sources target = .done layouts) :
    (∀ record ∈ layouts.records, Sound layouts.records record)
      ∧ ∃ typeId : ℕ → ℕ, Set.BijOn typeId (Set.Iio graph.types.length)
          (Set.Iio layouts.records.length)
        ∧ ∀ i node, graph.types[i]? = some node → ∃ record,
          layouts.records[typeId i]? = some record
            ∧ record.kind.raw = node.kind.rename typeId := by
  obtain ⟨hadmitted, keys, hkeyed, -, hverify⟩ := verify_eq_done.mp h
  unfold verifyKeyed at hverify
  obtain ⟨canonical, hcanonical, hverify⟩ := Outcome.bind_eq_done.mp hverify
  have htypes := types_assignTypeIds (passed_eq_done.mp hcanonical).2
  have hperm : (orderedNodes keys).Perm (List.range graph.types.length) :=
    hkeyed.length_eq ▸ perm_orderedNodes keys
  -- the layouts are those of the requested target
  have hrecords : computeRecords canonical.types canonical.universeIdentity target
      = .done (.ok layouts.records) := by
    obtain ⟨-, linear, linux, _, _, hlinear, hlinux, -, -, rfl⟩ :=
      verifyCanonical_eq_done.mp hverify
    cases target with
    | linear32V1 => exact hlinear
    | linuxX8664V1 => exact hlinux
  rw [htypes] at hrecords
  obtain ⟨hlength, hsound, hnodes⟩ := computeRecords_record_sound hadmitted hperm hrecords
  refine ⟨hsound, (orderedNodes keys).idxOf, ?_, hnodes⟩
  rw [hlength]
  exact bijOn_idxOf hperm

/-- The records of a `Vec` over a `Vec` over `String`, with that of the outer `Vec` among them. -/
theorem layout_sound_nestedVecs : ∃ layouts,
    verify (fun _ => []) (nestedVecs 2) nestedSources .linuxX8664V1 = .done layouts
      ∧ (∀ record ∈ layouts.records, Sound layouts.records record)
      ∧ ∃ record ∈ layouts.records, ∃ element, record.kind.raw = .vec element := by
  obtain ⟨layouts, hlayouts⟩ :=
    verify_nestedVecs (fun _ => []) (show 2 + 3 ≤ maxTypeNodes by decide) .linuxX8664V1
  obtain ⟨hsound, typeId, -, hnodes⟩ :=
    layout_sound (fun _ => []) (nestedVecs 2) nestedSources .linuxX8664V1 layouts hlayouts
  obtain ⟨record, hrecord, hkind⟩ := hnodes 4 _ (getElem?_nestedVecs (by decide))
  exact ⟨layouts, hlayouts, hsound, record, mem_of_getElem? hrecord, _, hkind⟩

/-! ### The two targets -/

/-- The identity of a record and what it verifies, which no target decides. -/
def LayoutRecord.entry (record : LayoutRecord) : TypeId × TypeKind := (record.id, record.kind.raw)

theorem byValueChildren_raw (kind : VerifiedKind) :
    kind.raw.byValueChildren = kind.byValueChildren := by
  cases kind with
  | enum _ _ variants =>
    simp [VerifiedKind.raw, TypeKind.byValueChildren, VerifiedKind.byValueChildren,
      filterMap_map]
  | _ => simp [VerifiedKind.raw, TypeKind.byValueChildren, VerifiedKind.byValueChildren]

theorem isResource_of_raw {kind kind' : VerifiedKind} (h : kind.raw = kind'.raw) :
    kind.isResource = kind'.isResource := by
  cases kind <;> cases kind' <;> simp_all [VerifiedKind.raw, VerifiedKind.isResource]

theorem HoldsResource.of_entries {records records' : List LayoutRecord}
    (h : records.map LayoutRecord.entry = records'.map LayoutRecord.entry) {i : ℕ}
    (hholds : HoldsResource records i) : HoldsResource records' i := by
  have hget {i : ℕ} {record : LayoutRecord} (hrecord : records[i]? = some record) :
      ∃ record', records'[i]? = some record' ∧ record'.kind.raw = record.kind.raw := by
    have hentry := congrArg (fun entries : List (TypeId × TypeKind) => entries[i]?) h
    simp only [getElem?_map, hrecord, map_some] at hentry
    obtain ⟨record', hrecord', heq⟩ := map_eq_some_iff.mp hentry.symm
    exact ⟨record', hrecord', congrArg Prod.snd heq⟩
  induction hholds with
  | own hrecord hresource =>
    obtain ⟨record', hrecord', hraw⟩ := hget hrecord
    exact .own hrecord' (isResource_of_raw hraw ▸ hresource)
  | stored hrecord hchild _ ih =>
    obtain ⟨record', hrecord', hraw⟩ := hget hrecord
    rw [← byValueChildren_raw, ← hraw, byValueChildren_raw] at hchild
    exact .stored hrecord' hchild ih

/-- The records of a target are those of the canonical types in their order. -/
theorem entries_of_computeRecords {types : List TypeNode} {identity : List ℕ}
    {target : StorageTarget} {records : List LayoutRecord}
    (h : computeRecords types identity target = .done (.ok records)) :
    records.map LayoutRecord.entry = types.mapIdx fun i node => (⟨identity, i⟩, node.kind) := by
  obtain ⟨hlength, hinv, -⟩ := computeRecords_sound h
  refine List.ext_getElem (by simp [hlength]) fun i hi hi' => ?_
  have hrecord : i < records.length := by simpa using hi
  have hsound := hinv.sound i records[i] (getElem?_eq_getElem hrecord)
  have hkind := hsound.kind_eq
  rw [getElem?_eq_getElem (hlength ▸ hrecord), map_some, Option.some.injEq] at hkind
  simp [LayoutRecord.entry, hsound.id_eq, hkind]

/-- **The targets agree** on everything but storage: the verifier ends with the same diagnostics for
both, or with records of the same types in the same order that need dropping alike. -/
theorem verify_targets_agree (sha256 : List ℕ → List ℕ) (graph : Graph) (sources : SourceMap) :
    verify sha256 graph sources .linear32V1 ≠ .timeout ∧ Outcome.Matches
      (fun layouts layouts' : VerifiedLayouts =>
        layouts.universeIdentity = layouts'.universeIdentity
        ∧ layouts.records.map LayoutRecord.entry = layouts'.records.map LayoutRecord.entry
        ∧ ∀ (i : ℕ) (record record' : LayoutRecord), layouts.records[i]? = some record →
          layouts'.records[i]? = some record' → (record.dropKind ≠ 0 ↔ record'.dropKind ≠ 0))
      (verify sha256 graph sources .linear32V1) (verify sha256 graph sources .linuxX8664V1) := by
  refine ⟨verify_ne_timeout sha256 graph sources _, ?_⟩
  have hbind {α β : Type} {R : β → β → Prop} (m : Outcome LayoutFailure α)
      {f f' : α → Outcome LayoutFailure β}
      (hf : ∀ a, m = .done a → Outcome.Matches R (f a) (f' a)) :
      Outcome.Matches R (m >>= f) (m >>= f') := by
    cases m with
    | timeout => trivial
    | fault e => rfl
    | done a => exact hf a rfl
  -- the passes up to the records do not see the target
  refine hbind _ fun _ _ => hbind _ fun keys _ => hbind _ fun canonical _ => hbind _ fun _ _ =>
    hbind _ fun linear hlinear => hbind _ fun linux hlinux => hbind _ fun _ _ => hbind _ fun _ _ =>
    ?_
  replace hlinear := recordsOf_eq_done.mp hlinear
  replace hlinux := recordsOf_eq_done.mp hlinux
  have hentries := (entries_of_computeRecords hlinear).trans (entries_of_computeRecords hlinux).symm
  refine ⟨rfl, hentries, fun i record record' hrecord hrecord' => ?_⟩
  rw [(computeRecords_sound hlinear).2.1.dropKind_iff hrecord,
    (computeRecords_sound hlinux).2.1.dropKind_iff hrecord']
  exact ⟨.of_entries hentries, .of_entries hentries.symm⟩

end Zryna.Layout.Aggregate
