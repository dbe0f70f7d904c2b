import Zryna.Layout.KeyStream
import Zryna.Layout.NestedVecs

/-!
# The preimage of a universe identity

The identity of a universe is the digest of one byte string: the number of types, and for every
type the length of its key, the key, and a record of the node that nothing separates from what
follows. `readUniverse` reads such a string back from the front. A key is read by its length; the
tag of a record tells how many integers follow, and the count in a record how many members.

Hence equal preimages come from equal universes, type by type. `canonicalKeys_faithful` collects
what the keys of an admitted graph stand for.
-/

namespace Zryna.Layout.Aggregate

open Raw Report List

/-! ### Reading -/

/-- So many members, each an ordinal and a type. -/
def readMembers : ℕ → List ℕ → Option (List (ℕ × ℕ) × List ℕ)
  | 0, input => some ([], input)
  | count + 1, input => do
    let (ordinal, input) ← takeLe 4 input
    let (ty, input) ← takeLe 4 input
    let (members, input) ← readMembers count input
    some ((ordinal, ty) :: members, input)

/-- The declaration and the members of a nominal type. -/
def readNominal (input : List ℕ) : Option ((ℕ × ℕ × List (ℕ × ℕ)) × List ℕ) := do
  let (module, input) ← takeLe 4 input
  let (declaration, input) ← takeLe 4 input
  let (count, input) ← takeLe 4 input
  let (members, input) ← readMembers count input
  some ((module, declaration, members), input)

def readVariant (member : ℕ × ℕ) : Variant :=
  ⟨member.1, if member.2 = noPayloadTypeId then none else some member.2⟩

def readRecord (input : List ℕ) : Option (TypeKind × List ℕ) := do
  let (tag, input) ← takeLe 4 input
  match tag with
  | 1 => some (.bool, input)
  | 2 => some (.i32, input)
  | 6 => some (.string, input)
  | 3 => do
    let ((module, declaration, members), input) ← readNominal input
    some (.struct module declaration (members.map fun member => ⟨member.1, member.2⟩), input)
  | 4 => do
    let ((module, declaration, members), input) ← readNominal input
    some (.enum module declaration (members.map readVariant), input)
  | 5 => do
    let (element, input) ← takeLe 4 input
    let (length, input) ← takeLe 8 input
    some (.fixedArray element length, input)
  | 7 => (takeLe 4 input).map fun (element, input) => (.vec element, input)
  | 8 => (takeLe 4 input).map fun (payload, input) => (.shared payload, input)
  | 9 => (takeLe 4 input).map fun (payload, input) => (.weak payload, input)
  | _ => none

/-- So many keys, each after its length and with its record. -/
def readEntries : ℕ → List ℕ → Option (List (List ℕ × TypeKind))
  | 0, _ => some []
  | count + 1, input => do
    let (length, input) ← takeLe 4 input
    let (kind, rest) ← readRecord (input.drop length)
    let entries ← readEntries count rest
    some ((input.take length, kind) :: entries)

def readUniverse (preimage : List ℕ) : Option (List (List ℕ × TypeKind)) := do
  let (count, input) ← takeLe 4 (preimage.drop universeDomain.length)
  readEntries count input

/-! ### What is read back -/

/-- Every number of a kind fits the integer that it is written as. -/
def NumbersFit : TypeKind → Prop
  | .bool | .i32 | .string => True
  | .struct module declaration fields => module < 2 ^ 32 ∧ declaration < 2 ^ 32
    ∧ fields.length < 2 ^ 32 ∧ ∀ field ∈ fields, field.ordinal < 2 ^ 32 ∧ field.ty < noPayloadTypeId
  | .enum module declaration variants => module < 2 ^ 32 ∧ declaration < 2 ^ 32
    ∧ variants.length < 2 ^ 32 ∧ ∀ variant ∈ variants, variant.ordinal < 2 ^ 32
      ∧ ∀ payload ∈ variant.payload, payload < noPayloadTypeId
  | .fixedArray element length => element < noPayloadTypeId ∧ length < 2 ^ 64
  | .vec element => element < noPayloadTypeId
  | .shared payload | .weak payload => payload < noPayloadTypeId
  | .borrow _ => False

variable {value : ℕ} {members : List (ℕ × ℕ)} {entries : List (ℕ × List ℕ)}

theorem takeLe_four (h : value < 2 ^ 32) (rest : List ℕ) :
    takeLe 4 (leBytes 4 value ++ rest) = some (value, rest) :=
  takeLe_leBytes h rest

theorem takeLe_eight (h : value < 2 ^ 64) (rest : List ℕ) :
    takeLe 8 (leBytes 8 value ++ rest) = some (value, rest) :=
  takeLe_leBytes h rest

theorem lt_of_lt_noPayloadTypeId {id : ℕ} (h : id < noPayloadTypeId) : id < 2 ^ 32 := by
  unfold noPayloadTypeId at h
  omega

theorem readMembers_append
    (h : ∀ member ∈ members, member.1 < 2 ^ 32 ∧ member.2 < 2 ^ 32) (rest : List ℕ) :
    readMembers members.length
      ((members.flatMap fun member => leBytes 4 member.1 ++ leBytes 4 member.2) ++ rest)
      = some (members, rest) := by
  induction members with
  | nil => rfl
  | cons member members ih =>
    obtain ⟨⟨hordinal, hty⟩, hmembers⟩ := forall_mem_cons.mp h
    simp [readMembers, takeLe_four hordinal, takeLe_four hty, ih hmembers]

theorem readNominal_append {module declaration : ℕ} (hmodule : module < 2 ^ 32)
    (hdeclaration : declaration < 2 ^ 32) (hlength : members.length < 2 ^ 32)
    (h : ∀ member ∈ members, member.1 < 2 ^ 32 ∧ member.2 < 2 ^ 32) (rest : List ℕ) :
    readNominal (leBytes 4 module ++ (leBytes 4 declaration ++ (leBytes 4 members.length
      ++ ((members.flatMap fun member => leBytes 4 member.1 ++ leBytes 4 member.2) ++ rest))))
      = some ((module, declaration, members), rest) := by
  simp [readNominal, takeLe_four hmodule, takeLe_four hdeclaration, takeLe_four hlength,
    readMembers_append h]

/-- A missing payload is written as an identity that no type has. -/
theorem readVariant_eq {variant : Variant}
    (h : ∀ payload ∈ variant.payload, payload < noPayloadTypeId) :
    readVariant (variant.ordinal, variant.payload.getD noPayloadTypeId) = variant := by
  obtain ⟨ordinal, payload⟩ := variant
  cases payload with
  | none => simp [readVariant]
  | some payload =>
    have hne : payload ≠ noPayloadTypeId := Nat.ne_of_lt (h payload rfl)
    simp [readVariant, hne]

/-- A record is read back, and what follows it is left alone. -/
theorem readRecord_append {kind : TypeKind} {bytes : List ℕ} (hfits : NumbersFit kind)
    (h : universeRecord kind = some bytes) (rest : List ℕ) :
    readRecord (bytes ++ rest) = some (kind, rest) := by
  have htag {tag : ℕ} (hlt : tag < 10) (input : List ℕ) :
      takeLe 4 (leBytes 4 tag ++ input) = some (tag, input) :=
    takeLe_four (hlt.trans (by decide)) input
  cases kind with
  | bool | i32 | string =>
    cases h
    rfl
  | struct module declaration fields =>
    cases h
    obtain ⟨hmodule, hdeclaration, hlength, hfields⟩ := hfits
    have hmembers : ∀ member ∈ fields.map fun field => (field.ordinal, field.ty),
        member.1 < 2 ^ 32 ∧ member.2 < 2 ^ 32 := by
      intro member hmember
      obtain ⟨field, hfield, rfl⟩ := mem_map.mp hmember
      exact ⟨(hfields field hfield).1, lt_of_lt_noPayloadTypeId (hfields field hfield).2⟩
    have hread := readNominal_append hmodule hdeclaration (by rwa [length_map]) hmembers rest
    rw [length_map, flatMap_map] at hread
    simp only [readRecord, append_assoc, htag (show 3 < 10 by decide), hread,
      Option.bind_eq_bind, Option.bind_some, map_map]
    simp [Function.comp_def]
  | enum module declaration variants =>
    cases h
    obtain ⟨hmodule, hdeclaration, hlength, hvariants⟩ := hfits
    have hmembers : ∀ member ∈ variants.map fun variant =>
        (variant.ordinal, variant.payload.getD noPayloadTypeId),
        member.1 < 2 ^ 32 ∧ member.2 < 2 ^ 32 := by
      intro member hmember
      obtain ⟨variant, hvariant, rfl⟩ := mem_map.mp hmember
      obtain ⟨hordinal, hpayload⟩ := hvariants variant hvariant
      refine ⟨hordinal, ?_⟩
      cases hvalue : variant.payload with
      | none => exact Nat.sub_one_lt (by decide)
      | some payload => exact lt_of_lt_noPayloadTypeId (hpayload payload hvalue)
    have hread := readNominal_append hmodule hdeclaration (by rwa [length_map]) hmembers rest
    rw [length_map, flatMap_map] at hread
    have hback : (variants.map fun variant =>
        (variant.ordinal, variant.payload.getD noPayloadTypeId)).map readVariant = variants := by
      rw [map_map]
      exact (map_congr_left fun variant hvariant =>
        readVariant_eq (hvariants variant hvariant).2).trans (map_id _)
    simp [readRecord, htag (show 4 < 10 by decide), hread, hback]
  | fixedArray element length =>
    cases h
    obtain ⟨helement, hlength⟩ := hfits
    simp [readRecord, htag (show 5 < 10 by decide), takeLe_four (lt_of_lt_noPayloadTypeId helement),
      takeLe_eight hlength]
  | vec element =>
    cases h
    simp [readRecord, htag (show 7 < 10 by decide), takeLe_four (lt_of_lt_noPayloadTypeId hfits)]
  | shared payload =>
    cases h
    simp [readRecord, htag (show 8 < 10 by decide), takeLe_four (lt_of_lt_noPayloadTypeId hfits)]
  | weak payload =>
    cases h
    simp [readRecord, htag (show 9 < 10 by decide), takeLe_four (lt_of_lt_noPayloadTypeId hfits)]
  | borrow referent => cases h

/-- Entries are read back, one after another. -/
theorem readEntries_flatMap {kinds : List TypeKind}
    {records : List (List ℕ)} (hlength : entries.length = kinds.length)
    (hentries : ∀ entry ∈ entries, entry.1 = entry.2.length ∧ entry.1 < 2 ^ 32)
    (hkinds : ∀ kind ∈ kinds, NumbersFit kind) (hrecords : kinds.mapM universeRecord = some records) :
    readEntries kinds.length
      ((entries.zip records).flatMap fun entry => leBytes 4 entry.1.1 ++ entry.1.2 ++ entry.2)
      = some ((entries.map Prod.snd).zip kinds) := by
  induction kinds generalizing entries records with
  | nil =>
    rw [eq_nil_of_length_eq_zero hlength]
    rfl
  | cons kind kinds ih =>
    obtain ⟨⟨length, key⟩, entries, rfl⟩ := exists_cons_of_length_eq_add_one hlength
    obtain ⟨⟨hkey, hlt⟩, hentries'⟩ := forall_mem_cons.mp hentries
    obtain ⟨hkind, hkinds'⟩ := forall_mem_cons.mp hkinds
    simp only [mapM_cons, Option.bind_eq_bind, Option.bind_eq_some_iff, Option.pure_def,
      Option.some.injEq] at hrecords
    obtain ⟨record, hrecord, records, hrecords, rfl⟩ := hrecords
    obtain rfl : length = key.length := hkey
    have hrest := ih (Nat.succ.inj hlength) hentries' hkinds' hrecords
    simp only [append_assoc] at hrest
    simp [readEntries, takeLe_four hlt, readRecord_append hkind hrecord, hrest]

/-! ### The preimage -/

/-- What the identity of a universe is the digest of. -/
def universePreimage (entries : List (ℕ × List ℕ)) (types : List TypeNode) : Option (List ℕ) :=
  (types.mapM fun node => universeRecord node.kind).map fun records =>
    universeDomain ++ leBytes 4 types.length
      ++ (entries.zip records).flatMap fun entry => leBytes 4 entry.1.1 ++ entry.1.2 ++ entry.2

theorem value_sealUniverseIdentity (sha256 : List ℕ → List ℕ) (entries : List (ℕ × List ℕ))
    (types : List TypeNode) : (sealUniverseIdentity sha256 entries types).value
      = (universePreimage entries types).map sha256 := by
  rw [universePreimage, Option.map_map]
  rfl

theorem readUniverse_universePreimage {types : List TypeNode}
    {preimage : List ℕ} (hlength : entries.length = types.length) (htypes : types.length < 2 ^ 32)
    (hentries : ∀ entry ∈ entries, entry.1 = entry.2.length ∧ entry.1 < 2 ^ 32)
    (hkinds : ∀ node ∈ types, NumbersFit node.kind)
    (h : universePreimage entries types = some preimage) :
    readUniverse preimage = some ((entries.map Prod.snd).zip (types.map TypeNode.kind)) := by
  obtain ⟨records, hrecords, rfl⟩ := Option.map_eq_some_iff.mp h
  have hmap : (types.map TypeNode.kind).mapM universeRecord = some records := by
    rw [mapM_map]
    exact hrecords
  have hread := readEntries_flatMap (by rwa [length_map]) hentries
    (forall_mem_map.mpr hkinds) hmap
  simp only [length_map, append_assoc] at hread
  simp [readUniverse, takeLe_four htypes, hread]

/-! ### Accepted universes -/

section Accepted

variable {graph : Graph} {sources : SourceMap} {keys : List CanonicalKey}

theorem Admitted.numbersFit (h : Admitted graph sources) {node : TypeNode}
    (hnode : node ∈ graph.types) (herror : keyError node = none) {f : ℕ → ℕ}
    (hf : ∀ i < graph.types.length, f i < noPayloadTypeId) : NumbersFit (node.kind.rename f) := by
  have hshape := h.shape node hnode
  have hlocal := h.local_le node hnode
  have hnominal {module declaration : ℕ} := @Admitted.nominal_lt graph sources h node hnode
    module declaration
  obtain ⟨id, span, kind⟩ := node
  cases kind with
  | bool | i32 | string => trivial
  | struct module declaration fields =>
    obtain ⟨hmodule, hdeclaration⟩ := hnominal rfl
    simp only [TypeKind.memberAndEdgeCount, maxMembersPerDeclaration] at hlocal
    have hfields := (clean_forM _ _).mp
      ((clean_bind _ _).mp ((clean_bind _ _).mp hshape).2).2
    refine ⟨hmodule, hdeclaration, by rw [length_map]; omega, fun field hfield => ?_⟩
    obtain ⟨original, horiginal, rfl⟩ := mem_map.mp hfield
    obtain ⟨i, hi⟩ := mem_iff_getElem?.mp horiginal
    have hchecked := (clean_pushIf _ _).mp
      (hfields (original, i) (mem_zipIdx_iff_getElem?.mpr hi))
    rw [not_or, not_not, not_not] at hchecked
    obtain ⟨(hordinal : original.ordinal = i), href⟩ := hchecked
    have hlt := (List.getElem?_eq_some_iff.mp hi).1
    exact ⟨show original.ordinal < _ by omega, hf _ (validRef_lt href)⟩
  | enum module declaration variants =>
    obtain ⟨hmodule, hdeclaration⟩ := hnominal rfl
    simp only [TypeKind.memberAndEdgeCount, maxMembersPerDeclaration] at hlocal
    have hvariants := (clean_forM _ _).mp
      ((clean_bind _ _).mp ((clean_bind _ _).mp hshape).2).2
    refine ⟨hmodule, hdeclaration, by rw [length_map]; omega, fun variant hvariant => ?_⟩
    obtain ⟨original, horiginal, rfl⟩ := mem_map.mp hvariant
    obtain ⟨i, hi⟩ := mem_iff_getElem?.mp horiginal
    have hchecked := (clean_pushIf _ _).mp
      (hvariants (original, i) (mem_zipIdx_iff_getElem?.mpr hi))
    rw [not_or, not_not] at hchecked
    obtain ⟨(hordinal : original.ordinal = i), href⟩ := hchecked
    have hlt := (List.getElem?_eq_some_iff.mp hi).1
    refine ⟨show original.ordinal < _ by omega, fun payload hpayload => ?_⟩
    obtain ⟨child, hchild, rfl⟩ := Option.map_eq_some_iff.mp hpayload
    rw [hchild] at href
    exact hf _ (validRef_lt (by simpa using href))
  | fixedArray element length =>
    have hchecked := (clean_pushIf _ _).mp hshape
    rw [not_or, not_not] at hchecked
    obtain ⟨href, hlength⟩ := hchecked
    unfold maxArrayLength at hlength
    exact ⟨hf _ (validRef_lt href), by omega⟩
  | vec element | shared payload | weak payload =>
    exact hf _ (validRef_lt (not_not.mp ((clean_pushIf _ _).mp hshape)))
  | borrow referent => cases herror

theorem Keyed.keyError_eq_none (h : Keyed graph keys) {node : TypeNode}
    (hnode : node ∈ graph.types) : keyError node = none := by
  obtain ⟨i, hi⟩ := mem_iff_getElem?.mp hnode
  have hlt : i < keys.length := h.length_eq ▸ (List.getElem?_eq_some_iff.mp hi).1
  obtain ⟨node', hnode', herror, -⟩ := h.key_eq (getElem?_eq_getElem hlt)
  rw [hi, Option.some.injEq] at hnode'
  exact hnode' ▸ herror

/-- The entries and the types that an admitted graph is sealed with are read back. -/
theorem Admitted.readUniverse (h : Admitted graph sources) (hkeyed : Keyed graph keys)
    {preimage : List ℕ} (hpreimage : universePreimage ((orderedNodes keys).map (keyEntry keys))
      (canonicalTypes graph (orderedNodes keys)) = some preimage) :
    Aggregate.readUniverse preimage = some (((orderedNodes keys).map (keyBytes keys)).zip
      ((canonicalTypes graph (orderedNodes keys)).map TypeNode.kind)) := by
  have hperm : (orderedNodes keys).Perm (List.range graph.types.length) :=
    hkeyed.length_eq ▸ perm_orderedNodes keys
  have hlt : ∀ i ∈ orderedNodes keys, i < graph.types.length := fun i hi =>
    mem_range.mp (hperm.mem_iff.mp hi)
  have hlength := length_canonicalTypes hlt
  have hcount : (orderedNodes keys).length = graph.types.length :=
    hperm.length_eq.trans length_range
  have hle := h.types_le
  unfold maxTypeNodes at hle
  have hread := readUniverse_universePreimage (by rw [hlength, length_map])
    (by omega) (fun entry hentry => ?_) (fun node hnode => ?_) hpreimage
  · rwa [map_map] at hread
  · obtain ⟨i, hi, rfl⟩ := mem_map.mp hentry
    have hkey := getElem?_eq_getElem (hkeyed.length_eq ▸ hlt i hi : i < keys.length)
    have hshort := hkeyed.encodedLen_lt h.types_le hkey
    simp only [keyEntry, hkey, Option.map_some, Option.getD_some]
    exact ⟨(hkeyed.length_keyBytes hkey hshort).symm, hshort⟩
  · obtain ⟨k, hk⟩ := mem_iff_getElem?.mp hnode
    rw [getElem?_canonicalTypes hlt] at hk
    obtain ⟨i, -, hk⟩ := Option.bind_eq_some_iff.mp hk
    obtain ⟨original, horiginal, rfl⟩ := Option.map_eq_some_iff.mp hk
    have hmem := mem_of_getElem? horiginal
    rw [TypeNode.rename_kind]
    refine h.numbersFit hmem (hkeyed.keyError_eq_none hmem) fun j hj => ?_
    have hidx : (orderedNodes keys).idxOf j < graph.types.length := (bijOn_idxOf hperm).mapsTo hj
    unfold noPayloadTypeId
    omega

theorem passed_assignTypeIds {sha256 : List ℕ → List ℕ} {canonical : CanonicalMap}
    (h : passed (assignTypeIds sha256 graph keys) = .done canonical) :
    canonical.types = canonicalTypes graph (orderedNodes keys)
      ∧ ∃ preimage, universePreimage ((orderedNodes keys).map (keyEntry keys)) canonical.types
          = some preimage ∧ canonical.universeIdentity = sha256 preimage := by
  have hvalue := (passed_eq_done.mp h).2
  have htypes := types_assignTypeIds hvalue
  refine ⟨htypes, ?_⟩
  unfold assignTypeIds at hvalue
  dsimp only at hvalue
  split at hvalue
  · cases hvalue
  · rw [value_bind, value_pure, value_sealUniverseIdentity,
      Option.map_eq_some_iff] at hvalue
    obtain ⟨identity, hidentity, rfl⟩ := hvalue
    obtain ⟨preimage, hpreimage, rfl⟩ := Option.map_eq_some_iff.mp hidentity
    exact ⟨preimage, hpreimage, rfl⟩

/-- Lists of one length are told apart by their pairs. -/
theorem zip_inj {α β : Type} {xs xs' : List α} {ys ys' : List β} (h : xs.length = ys.length)
    (h' : xs'.length = ys'.length) (heq : xs.zip ys = xs'.zip ys') : xs = xs' ∧ ys = ys' := by
  constructor
  · rw [← map_fst_zip h.le, ← map_fst_zip h'.le, heq]
  · rw [← map_snd_zip h.ge, ← map_snd_zip h'.ge, heq]

end Accepted

/-- **Canonical keys are faithful.** In an admitted graph that has keys, the iterator yields for
every node the encoding of the type that the node denotes, as many bytes as the key says, and this
is what the nodes are sorted and sealed by. Two nodes have one stream exactly when they denote one
type. The identity of the universe is the digest of a preimage that no other accepted universe
has. -/
theorem canonicalKeys_faithful (graph : Graph) (sources : SourceMap) (keys : List CanonicalKey)
    (hpreflight : (preflight graph sources).Clean)
    (hkeys : passed (canonicalKeys graph) = .done keys) :
    (∀ i < graph.types.length, ∃ key τ, keys[i]? = some key ∧ Denotes graph i τ
      ∧ (∀ rounds, key.encodedLen ≤ rounds → (keyIter i).drain keys rounds = τ.encode)
      ∧ τ.encode.length = key.encodedLen
      ∧ keyStream keys i = τ.encode ∧ keyBytes keys i = τ.encode)
    ∧ (∀ i < graph.types.length, ∀ j < graph.types.length,
      keyStream keys i = keyStream keys j ↔ ∃ τ, Denotes graph i τ ∧ Denotes graph j τ)
    ∧ ∀ (sha256 : List ℕ → List ℕ) (canonical : CanonicalMap),
      passed (assignTypeIds sha256 graph keys) = .done canonical →
      ∃ preimage, universePreimage ((orderedNodes keys).map (keyEntry keys)) canonical.types
          = some preimage
        ∧ canonical.universeIdentity = sha256 preimage
        ∧ ∀ graph' sources' keys' canonical', (preflight graph' sources').Clean →
          passed (canonicalKeys graph') = .done keys' →
          passed (assignTypeIds sha256 graph' keys') = .done canonical' →
          universePreimage ((orderedNodes keys').map (keyEntry keys')) canonical'.types
            = some preimage →
          canonical'.types.map TypeNode.kind = canonical.types.map TypeNode.kind
            ∧ (orderedNodes keys').map (keyBytes keys') = (orderedNodes keys).map (keyBytes keys) := by
  have hadmitted := (preflight_clean graph sources).mp hpreflight
  have hkeyed := ((canonicalKeys_eq hadmitted.keyChildrenInRange keys).mp
    (passed_eq_done.mp hkeys)).1
  have hstream {i : ℕ} (hi : i < graph.types.length) {τ : Denoted} (hτ : Denotes graph i τ) :
      ∃ key, keys[i]? = some key
        ∧ (∀ rounds, key.encodedLen ≤ rounds → (keyIter i).drain keys rounds = τ.encode)
        ∧ τ.encode.length = key.encodedLen ∧ keyStream keys i = τ.encode := by
    obtain ⟨key, hkey⟩ : ∃ key, keys[i]? = some key :=
      ⟨_, getElem?_eq_getElem (hkeyed.length_eq ▸ hi)⟩
    have hbytes := hτ.keyBytes_eq hkeyed hadmitted.types_le hi
    have hlength := (hτ.spells hkeyed hadmitted.types_le _ hkey).1
    have hdrain (rounds : ℕ) (hrounds : key.encodedLen ≤ rounds) :
        (keyIter i).drain keys rounds = τ.encode := by
      rw [drain_eq_keyBytes hkeyed hadmitted.types_le (rests_keyIter hkey)
        (by rwa [hbytes, ← hlength]), hbytes]
    refine ⟨_, hkey, hdrain, hlength.symm, ?_⟩
    rw [keyStream, hkey]
    exact hdrain _ (Nat.le_succ _)
  refine ⟨fun i hi => ?_, fun i hi j hj => ?_, fun sha256 canonical hcanonical => ?_⟩
  · obtain ⟨τ, hτ⟩ := hkeyed.denotes hi
    obtain ⟨key, hkey, hdrain, hlength, hkeyStream⟩ := hstream hi hτ
    exact ⟨key, τ, hkey, hτ, hdrain, hlength, hkeyStream,
      hτ.keyBytes_eq hkeyed hadmitted.types_le hi⟩
  · obtain ⟨τ, hτ⟩ := hkeyed.denotes hi
    obtain ⟨υ, hυ⟩ := hkeyed.denotes hj
    obtain ⟨-, -, -, -, hi'⟩ := hstream hi hτ
    obtain ⟨-, -, -, -, hj'⟩ := hstream hj hυ
    constructor
    · intro heq
      rw [hi', hj'] at heq
      obtain rfl := Denoted.encode_inj (hτ.fits hadmitted) (hυ.fits hadmitted) heq
      exact ⟨τ, hτ, hυ⟩
    · rintro ⟨ρ, hρ, hρ'⟩
      obtain ⟨-, -, -, -, hi⟩ := hstream hi hρ
      obtain ⟨-, -, -, -, hj⟩ := hstream hj hρ'
      exact hi.trans hj.symm
  · obtain ⟨htypes, preimage, hpreimage, hidentity⟩ := passed_assignTypeIds hcanonical
    refine ⟨preimage, hpreimage, hidentity,
      fun graph' sources' keys' canonical' hpreflight' hkeys' hcanonical' hpreimage' => ?_⟩
    have hadmitted' := (preflight_clean graph' sources').mp hpreflight'
    have hkeyed' := ((canonicalKeys_eq hadmitted'.keyChildrenInRange keys').mp
      (passed_eq_done.mp hkeys')).1
    obtain ⟨htypes', -⟩ := passed_assignTypeIds hcanonical'
    rw [htypes] at hpreimage ⊢
    rw [htypes'] at hpreimage' ⊢
    have hread := hadmitted.readUniverse hkeyed hpreimage
    rw [hadmitted'.readUniverse hkeyed' hpreimage', Option.some.injEq] at hread
    have hlength {graph : Graph} {keys : List CanonicalKey} (hkeyed : Keyed graph keys) :
        ((orderedNodes keys).map (keyBytes keys)).length
          = ((canonicalTypes graph (orderedNodes keys)).map TypeNode.kind).length := by
      rw [length_map, length_map, length_canonicalTypes]
      intro i hi
      exact hkeyed.length_eq ▸ mem_range.mp ((perm_orderedNodes keys).mem_iff.mp hi)
    obtain ⟨hbytes, hkinds⟩ := zip_inj (hlength hkeyed') (hlength hkeyed) hread
    exact ⟨hkinds, hbytes⟩

/-- The key of a `Vec` over a `Vec` over `String`. -/
theorem canonicalKeys_faithful_nestedVecs : ∃ τ, Denotes (nestedVecs 2) 4 τ
    ∧ keyStream (nestedKeys 2) 4 = τ.encode
    ∧ τ.encode = [0x21, 6, 0, 0, 0, 0x21, 1, 0, 0, 0, 0x02] := by
  have hheight : 2 + 3 ≤ maxTypeNodes := by decide
  obtain ⟨key, τ, -, hτ, -, -, hstream, -⟩ := (canonicalKeys_faithful (nestedVecs 2) nestedSources
    (nestedKeys 2) ((preflight_clean _ _).mpr (admitted_nestedVecs hheight))
    (passed_nestedVecs hheight)).1 4 (by decide)
  exact ⟨τ, hτ, hstream, hstream.symm.trans (by decide)⟩

end Zryna.Layout.Aggregate
