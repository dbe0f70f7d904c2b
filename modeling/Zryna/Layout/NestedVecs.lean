import Zryna.Layout.Verify

/-!
# Nested `Vec`s

A family of graphs that the aggregate layout verifier accepts: `nestedVecs height` holds the three
primitives and a tower of `Vec`s over `String`, numbered from the bottom. No type of it stores
another one by value, so the passes after the keys come down to `verifyCanonical_leaves`.

`verify_nestedVecs`: every height is accepted up to the limit on the number of types, far beyond the
limit on the depth of keys.
-/

namespace Zryna.Layout.Aggregate

open Raw Report List Option

/-! ### Types that store no other type -/

/-- A type that stores no other type, with its reference among the first `n` types. -/
def Leaf (n : ℕ) : TypeKind → Prop
  | .bool | .i32 | .string => True
  | .vec element => element < n
  | .shared payload | .weak payload => payload < n
  | _ => False

theorem Leaf.byValueChildren {n : ℕ} {kind : TypeKind} (h : Leaf n kind) :
    kind.byValueChildren = [] := by
  cases kind <;> first | rfl | exact h.elim

section Leaves

variable (universeIdentity : List ℕ) (target : StorageTarget)

section

variable (index : ℕ) (node : TypeNode)

/-- The record of a type that stores no other type. -/
def leafRecord : LayoutRecord :=
  let id : TypeId := ⟨universeIdentity, index⟩
  let (word, wordAlignment) := wordLayout target
  match node.kind with
  | .bool => ⟨id, .bool, 1, 1, 0, 0⟩
  | .i32 => ⟨id, .i32, 4, 4, 0, 0⟩
  | .vec element => ⟨id, .vec ⟨universeIdentity, element⟩, word * 3, wordAlignment, 3, 3⟩
  | .shared payload => ⟨id, .shared ⟨universeIdentity, payload⟩, word, wordAlignment, 4, 4⟩
  | .weak payload => ⟨id, .weak ⟨universeIdentity, payload⟩, word, wordAlignment, 5, 5⟩
  | _ => ⟨id, .string, word * 3, wordAlignment, 2, 2⟩

theorem leafRecord_size :
    0 < (leafRecord universeIdentity target index node).size
      ∧ (leafRecord universeIdentity target index node).size ≤ 24 := by
  unfold leafRecord
  cases target <;> cases node.kind <;> simp [wordLayout]

theorem leafRecord_alignment :
    (leafRecord universeIdentity target index node).alignment ∈ [1, 4, 8] := by
  unfold leafRecord
  cases target <;> cases node.kind <;> simp [wordLayout]

end

variable {universeIdentity target} {index n : ℕ} {graph : Graph} {keys : List CanonicalKey}

/-- The numbers of a leaf fit a document. -/
theorem leafRecord_fits {node : TypeNode} (hleaf : Leaf n node.kind)
    (hn : n ≤ 2 ^ 32) (hindex : index < n) :
    RecordFits index (leafRecord universeIdentity target index node) := by
  have hsize := (leafRecord_size universeIdentity target index node).2
  have halignment := leafRecord_alignment universeIdentity target index node
  obtain ⟨id, span, kind⟩ := node
  refine ⟨?_, hindex.trans_le hn, ?_, ?_, hsize.trans_lt (by decide), ?_, ?_, ?_⟩
  · cases kind <;> rfl
  · cases kind <;> simp [leafRecord]
  · cases kind <;> simp [leafRecord]
  · have hall : ∀ alignment ∈ [1, 4, 8], alignment < 2 ^ 64 := by simp
    exact hall _ halignment
  · cases kind <;> first | trivial | exact hleaf.trans_le hn
  · cases kind <;> simp [leafRecord, encodeRecord, encodeKind]

/-- A leaf gets its record, since no leaf is without a size. -/
theorem recordOf_leaf {node : TypeNode} (hleaf : Leaf n node.kind)
    {records : ℕ → Option LayoutRecord}
    (hsize : ∀ i record, records i = some record → record.size ≠ 0) :
    recordOf universeIdentity target records index node
      = .ok (leafRecord universeIdentity target index node) := by
  unfold recordOf leafRecord
  obtain ⟨id, span, kind⟩ := node
  cases kind with
  | vec element =>
    have hnone : ((records element).any fun child => child.size = 0) = false := by
      cases helement : records element with
      | none => rfl
      | some child => simpa using hsize element child helement
    simp [hnone]
  | struct => exact hleaf.elim
  | enum => exact hleaf.elim
  | fixedArray => exact hleaf.elim
  | borrow => exact hleaf.elim
  | _ => rfl

/-- The state after the first `k` leaves. -/
def leavesBelow (universeIdentity : List ℕ) (target : StorageTarget) (types : List TypeNode)
    (k : ℕ) : RecordState where
  records i := if i < k then (types[i]?).map (leafRecord universeIdentity target i) else none
  visiting _ := false
  diagnostics := []

theorem computeOne_leaf {types : List TypeNode} (hleaves : ∀ node ∈ types, Leaf types.length node.kind)
    {k : ℕ} (hk : k < types.length) :
    computeOne types universeIdentity target (types.length + 1) k
        (leavesBelow universeIdentity target types k)
      = .done (leavesBelow universeIdentity target types (k + 1)) := by
  have hleaf := hleaves _ (getElem_mem hk)
  have hrecords : ∀ i record, (leavesBelow universeIdentity target types k).records i = some record
      → record.size ≠ 0 := by
    intro i record hrecord
    obtain ⟨-, hrecord⟩ := ite_none_right_eq_some.mp hrecord
    obtain ⟨node, -, rfl⟩ := map_eq_some_iff.mp hrecord
    exact (leafRecord_size _ _ i node).1.ne'
  have hlimits : ¬((leafRecord universeIdentity target k types[k]).alignment = 0
      ∨ ¬(leafRecord universeIdentity target k types[k]).alignment.isPowerOfTwo
      ∨ (leafRecord universeIdentity target k types[k]).alignment > 8
      ∨ (leafRecord universeIdentity target k types[k]).size > maxObjectSize) := by
    have hsize := (leafRecord_size universeIdentity target k types[k]).2
    have hall : ∀ alignment ∈ [1, 4, 8], alignment ≠ 0 ∧ alignment.isPowerOfTwo
        ∧ alignment ≤ 8 := by decide
    obtain ⟨hzero, hpower, hle⟩ := hall _ (leafRecord_alignment universeIdentity target k types[k])
    rintro (h | h | h | h)
    · exact hzero h
    · exact h hpower
    · exact absurd hle (Nat.not_le.mpr h)
    · exact absurd (hsize.trans (show 24 ≤ maxObjectSize by decide)) (Nat.not_le.mpr h)
  unfold computeOne
  rw [if_neg (by simp [leavesBelow]), getElem?_eq_getElem hk]
  dsimp only
  rw [hleaf.byValueChildren, foldlM_nil, Outcome.pure_eq, Outcome.done_bind,
    if_neg (by simp [leavesBelow, RecordState.visit])]
  rw [show ((leavesBelow universeIdentity target types k).visit k true).records
    = (leavesBelow universeIdentity target types k).records from rfl, recordOf_leaf hleaf hrecords]
  unfold RecordState.settle
  dsimp only
  rw [if_neg hlimits, Outcome.done_bind, Outcome.done.injEq]
  -- only the record of `k` is new
  unfold RecordState.store RecordState.visit leavesBelow
  simp only [Function.update_idem, Function.update_eq_self, RecordState.mk.injEq, and_true]
  funext i
  obtain hlt | rfl | hgt := lt_trichotomy i k
  · rw [Function.update_of_ne hlt.ne, if_pos hlt, if_pos (hlt.trans (Nat.lt_succ_self k))]
  · rw [Function.update_self, if_pos (Nat.lt_succ_self i), getElem?_eq_getElem hk,
      map_some]
  · rw [Function.update_of_ne hgt.ne', if_neg (Nat.not_lt.mpr hgt.le), if_neg (by omega)]

theorem foldlM_leaves (universeIdentity : List ℕ) (target : StorageTarget) {types : List TypeNode}
    (hleaves : ∀ node ∈ types, Leaf types.length node.kind) (m k : ℕ)
    (hk : k + m ≤ types.length) : (List.range' k m).foldlM
      (fun st index => computeOne types universeIdentity target (types.length + 1) index st)
      (leavesBelow universeIdentity target types k)
        = .done (leavesBelow universeIdentity target types (k + m)) := by
  induction m generalizing k with
  | zero => rfl
  | succ m ih =>
    rw [range'_succ, foldlM_cons, computeOne_leaf hleaves (by omega), Outcome.done_bind,
      ih (k + 1) (by omega)]
    congr 2
    omega

/-- Types that store no other type get their records. -/
theorem computeRecords_leaves {types : List TypeNode}
    (hleaves : ∀ node ∈ types, Leaf types.length node.kind) :
    computeRecords types universeIdentity target
      = .done (.ok (types.mapIdx (leafRecord universeIdentity target))) := by
  have hfold : (List.range types.length).foldlM
      (fun st index => computeOne types universeIdentity target (types.length + 1) index st)
      (leavesBelow universeIdentity target types 0)
        = .done (leavesBelow universeIdentity target types types.length) := by
    have h := foldlM_leaves universeIdentity target hleaves types.length 0 (Nat.zero_add _).le
    rwa [← range_eq_range', Nat.zero_add] at h
  have hmap : (List.range types.length).mapM
      (leavesBelow universeIdentity target types types.length).records
        = some (types.mapIdx (leafRecord universeIdentity target)) := by
    refine mapM_eq_some.mpr ⟨by simp, fun i index hi => ?_⟩
    obtain ⟨hlt, rfl⟩ := List.getElem?_eq_some_iff.mp hi
    rw [length_range] at hlt
    rw [getElem_range, getElem?_mapIdx]
    exact if_pos hlt
  have hzero : (types.mapIdx (leafRecord universeIdentity target)).findSome?
      (zeroSizedElement (types.mapIdx (leafRecord universeIdentity target))) = none := by
    rw [findSome?_eq_none_iff]
    intro record _
    unfold zeroSizedElement
    split
    · next element hkind =>
      rw [if_neg]
      rw [getElem?_mapIdx, Option.any_map]
      cases types[element.index]? with
      | none => simp
      | some node => simpa using (leafRecord_size _ _ element.index node).1.ne'
    · rfl
  unfold computeRecords
  rw [show (⟨fun _ => none, fun _ => false, []⟩ : RecordState)
    = leavesBelow universeIdentity target types 0 from rfl, hfold, Outcome.done_bind, hmap]
  dsimp only [leavesBelow]
  rw [hzero]
  rfl

variable (sha256 : List ℕ → List ℕ)

/-- Every list of records that fit can be sealed, so types that store no other type pass. -/
theorem verifyCanonical_leaves (sources : SourceMap) {canonical : CanonicalMap}
    (hleaves : ∀ node ∈ canonical.types, Leaf canonical.types.length node.kind)
    (hlength : canonical.types.length < 2 ^ 32) :
    ∃ layouts, verifyCanonical sha256 sources target canonical = .done layouts := by
  have hseal (target : StorageTarget) : ∃ fingerprint, sealTarget sha256 target
      (canonical.types.mapIdx (leafRecord canonical.universeIdentity target))
        = .ok fingerprint := by
    have hfits (i : ℕ) (record : LayoutRecord) (hrecord :
        (canonical.types.mapIdx (leafRecord canonical.universeIdentity target))[i]? = some record) :
        RecordFits i record := by
      rw [getElem?_mapIdx] at hrecord
      obtain ⟨node, hnode, rfl⟩ := map_eq_some_iff.mp hrecord
      exact leafRecord_fits (hleaves node (mem_of_getElem? hnode)) hlength.le
        (List.getElem?_eq_some_iff.mp hnode).1
    obtain ⟨bytes, -, hsealed⟩ := sealTarget_eq sha256 target (by simpa using hlength) hfits
    exact ⟨_, hsealed⟩
  obtain ⟨linear, hlinear⟩ := hseal .linear32V1
  obtain ⟨linux, hlinux⟩ := hseal .linuxX8664V1
  refine ⟨_, verifyCanonical_eq_done.mpr ⟨?_, _, _, linear, linux, computeRecords_leaves hleaves,
    computeRecords_leaves hleaves, hlinear, hlinux, rfl⟩⟩
  exact clean_rejectByValueCycles_flat fun node hnode => (hleaves node hnode).byValueChildren

theorem mem_canonicalTypes {ordered : List ℕ} {node : TypeNode}
    (h : node ∈ canonicalTypes graph ordered) :
    ∃ original ∈ graph.types, node = original.rename ordered.idxOf := by
  obtain ⟨index, -, hnode⟩ := mem_filterMap.mp h
  obtain ⟨original, horiginal, rfl⟩ := map_eq_some_iff.mp hnode
  exact ⟨original, mem_of_getElem? horiginal, rfl⟩

theorem Leaf.rename {n' : ℕ} {kind : TypeKind} (h : Leaf n kind) {f : ℕ → ℕ}
    (hf : ∀ i < n, f i < n') : Leaf n' (kind.rename f) := by
  cases kind <;> first | trivial | exact h.elim | exact hf _ h

theorem Leaf.universeRecord {kind : TypeKind} (h : Leaf n kind) : (universeRecord kind).isSome := by
  cases kind <;> first | rfl | exact h.elim

/-- Distinct and short keys identify the types. -/
theorem assignTypeIds_distinct
    (hshort : ∀ key ∈ keys, key.encodedLen < 2 ^ 32)
    (hdistinct : ((List.range keys.length).map (keyBytes keys)).Nodup)
    (hrecords : ∀ node ∈ canonicalTypes graph (orderedNodes keys),
      (Aggregate.universeRecord node.kind).isSome) :
    ∃ identity, passed (assignTypeIds sha256 graph keys)
      = .done ⟨canonicalTypes graph (orderedNodes keys), identity⟩ := by
  have hrepeats := (orderedNodes_distinct keys).mpr hdistinct
  have hlimits : ∀ key ∈ (orderedNodes keys).map (keyEntry keys), ¬key.1 ≥ 2 ^ 32 := by
    intro key hkey
    obtain ⟨i, -, rfl⟩ := mem_map.mp hkey
    unfold keyEntry
    cases hi : keys[i]? with
    | none => simp
    | some key => simpa using hshort key (mem_of_getElem? hi)
  have hmap : (canonicalTypes graph (orderedNodes keys)).mapM
      (fun node => Aggregate.universeRecord node.kind) = some
        ((canonicalTypes graph (orderedNodes keys)).map fun node =>
          (Aggregate.universeRecord node.kind).getD []) := by
    refine mapM_eq_some.mpr ⟨length_map _, fun i node hnode => ?_⟩
    rw [getElem?_map, hnode, map_some]
    obtain ⟨record, hrecord⟩ :=
      isSome_iff_exists.mp (hrecords node (mem_of_getElem? hnode))
    rw [hrecord, getD_some]
  simp only [passed_eq_done]
  unfold assignTypeIds
  dsimp only
  rw [hrepeats]
  unfold sealUniverseIdentity
  rw [hmap]
  simp only [Bool.false_eq_true, if_false, clean_bind, clean_forM,
    clean_limitIf, clean_pure, value_bind, value_pure, and_true,
    map_some, Option.some.injEq]
  exact ⟨_, hlimits, rfl⟩

/-- A graph of types that store no other type passes once its keys are distinct and short. -/
theorem verifyKeyed_leaves (sources : SourceMap)
    (hkeyed : Keyed graph keys) (hleaves : ∀ node ∈ graph.types, Leaf graph.types.length node.kind)
    (hlength : graph.types.length < 2 ^ 32) (hshort : ∀ key ∈ keys, key.encodedLen < 2 ^ 32)
    (hdistinct : ((List.range keys.length).map (keyBytes keys)).Nodup) :
    ∃ layouts, verifyKeyed sha256 graph sources target keys = .done layouts := by
  have hperm : (orderedNodes keys).Perm (List.range graph.types.length) :=
    hkeyed.length_eq ▸ perm_orderedNodes keys
  have htypes : (canonicalTypes graph (orderedNodes keys)).length = graph.types.length := by
    rw [length_canonicalTypes, hperm.length_eq, length_range]
    intro i hi
    exact mem_range.mp (hperm.mem_iff.mp hi)
  have hcanonical : ∀ node ∈ canonicalTypes graph (orderedNodes keys),
      Leaf graph.types.length node.kind := by
    intro node hnode
    obtain ⟨original, horiginal, rfl⟩ := mem_canonicalTypes hnode
    exact (hleaves original horiginal).rename fun i hi => (bijOn_idxOf hperm).mapsTo hi
  obtain ⟨identity, hassign⟩ := assignTypeIds_distinct sha256 hshort hdistinct
    fun node hnode => (hcanonical node hnode).universeRecord
  unfold verifyKeyed
  rw [hassign, Outcome.done_bind]
  exact verifyCanonical_leaves sha256 sources (by rwa [htypes]) (by rwa [htypes])

end Leaves

/-! ### The tower -/

/-- One empty source file. -/
def nestedSources : SourceMap where
  id := 0
  files := [⟨⟨0, 0⟩, "main.zry", ""⟩]
  files_le := by decide
  id_eq := by
    intro i file h
    match i, h with
    | 0, h => cases h; rfl
  text_le := by decide

def nestedKind : ℕ → TypeKind
  | 0 => .bool
  | 1 => .i32
  | 2 => .string
  | i + 3 => .vec (i + 2)

/-- The primitives, and a tower of `Vec`s over `String` numbered from the bottom. -/
def nestedVecs (height : ℕ) : Graph where
  modules := [⟨0, ⟨0, 0⟩, 0⟩]
  types := ⟨0, none, .bool⟩ :: ⟨1, none, .i32⟩ :: ⟨2, none, .string⟩ ::
    (List.range height).map fun i => ⟨i + 3, none, .vec (i + 2)⟩
  programRoots := [height + 2]

section Tower

variable (height : ℕ)

theorem length_nestedVecs : (nestedVecs height).types.length = height + 3 := by
  simp [nestedVecs]

variable {height} {i : ℕ}

theorem getElem?_nestedVecs (hi : i < height + 3) :
    (nestedVecs height).types[i]? = some ⟨i, none, nestedKind i⟩ := by
  match i, hi with
  | 0, _ | 1, _ | 2, _ => rfl
  | i + 3, hi => simp [nestedVecs, nestedKind, Nat.lt_of_add_lt_add_right hi]

theorem mem_nestedVecs {node : TypeNode} (h : node ∈ (nestedVecs height).types) :
    ∃ i < height + 3, node = ⟨i, none, nestedKind i⟩ := by
  obtain ⟨i, hi⟩ := getElem?_of_mem h
  have hlt := length_nestedVecs height ▸ (List.getElem?_eq_some_iff.mp hi).1
  rw [getElem?_nestedVecs hlt] at hi
  exact ⟨i, hlt, (Option.some.inj hi).symm⟩

theorem validRef_nestedVecs (hi : i < height + 3) : validRef (nestedVecs height) i = true := by
  unfold validRef
  rw [getElem?_nestedVecs hi]
  simp

theorem leaf_nestedKind {n : ℕ} (hi : i < n) : Leaf n (nestedKind i) := by
  match i, hi with
  | 0, _ | 1, _ | 2, _ => trivial
  | i + 3, hi => exact Nat.lt_of_succ_lt hi

/-- The primitives are declared, and the top of the tower is stored by the program. -/
theorem reached_nestedVecs (hi : i < height + 3) :
    Reached (childrenAt (nestedVecs height)) (nestedVecs height).types.length
      (· ∈ seeds (nestedVecs height)) i := by
  have htower (m : ℕ) (hm : m ≤ height) : Reached (childrenAt (nestedVecs height))
      (nestedVecs height).types.length (· ∈ seeds (nestedVecs height)) (height - m + 2) := by
    rw [length_nestedVecs]
    induction m with
    | zero => exact .seed (by simp [seeds, nestedVecs]) (by omega)
    | succ m ih =>
      refine .child (ih (Nat.le_of_succ_le hm)) ?_ (by omega)
      obtain ⟨k, hk⟩ : ∃ k, height - m = k + 1 := ⟨height - m - 1, by omega⟩
      rw [hk, show height - (m + 1) = k by omega, childrenAt, getElem?_nestedVecs (by omega)]
      simp [nestedKind, TypeKind.allChildren]
  obtain _ | _ | i := i
  · exact .seed (by simp [seeds, nestedVecs, declared]) (by simp [nestedVecs])
  · exact .seed (by simp [seeds, nestedVecs, declared]) (by simp [nestedVecs])
  · have := htower (height - i) (Nat.sub_le _ _)
    rwa [Nat.sub_sub_self (by omega)] at this

theorem admitted_nestedVecs (hheight : height + 3 ≤ maxTypeNodes) :
    Admitted (nestedVecs height) nestedSources where
  types_le := by rwa [length_nestedVecs]
  modules_length := rfl
  modules := by
    intro i module hi
    cases i with
    | zero => cases hi; exact ⟨by decide, rfl, rfl⟩
    | succ => cases hi
  id_eq := by
    intro i node hi
    have hlt := length_nestedVecs height ▸ (List.getElem?_eq_some_iff.mp hi).1
    rw [getElem?_nestedVecs hlt] at hi
    cases hi
    rfl
  local_le := by
    simp [nestedVecs, TypeKind.memberAndEdgeCount]
  members_le := by
    simp [nestedVecs, TypeKind.memberAndEdgeCount, Function.comp_def]
  edges_le := by
    simp only [maxTypeNodes] at hheight
    simp [nestedVecs, TypeKind.memberAndEdgeCount, Function.comp_def, maxDependencyEdges,
      -nsmul_eq_mul, -nsmul_one]
    omega
  shape := by
    intro node hnode
    obtain ⟨i, hi, rfl⟩ := mem_nestedVecs hnode
    obtain _ | _ | _ | i := i
    case succ.succ.succ =>
      simp [verifyNodeShape, nestedKind, verifyContainer, validRef_nestedVecs (Nat.lt_of_succ_lt hi)]
    all_goals simp [verifyNodeShape, nestedKind, verifyPrimitive]
  source := by
    intro node hnode
    obtain ⟨i, hi, rfl⟩ := mem_nestedVecs hnode
    obtain _ | _ | _ | i := i <;> rfl
  primitives := by
    simp [primitiveCounts, nestedVecs, Function.comp_def]
  nominal_nodup := by
    simp [nestedVecs, TypeKind.nominalIdentity, filterMap_map]
  declarations := by
    simp [nestedVecs, TypeKind.nominalIdentity, filterMap_map]
  roots := by
    intro root hroot
    rw [mem_singleton.mp hroot]
    exact validRef_nestedVecs (by omega)
  reached := by
    intro v hv
    exact reached_nestedVecs (length_nestedVecs height ▸ hv)

/-! ### Its keys -/

def nestedKey (i : ℕ) : CanonicalKey :=
  ⟨keyLead (nestedKind i), keyChild (nestedKind i), 5 * (i - 2) + 1⟩

def nestedKeys (height : ℕ) : List CanonicalKey := (List.range (height + 3)).map nestedKey

theorem length_nestedKeys : (nestedKeys height).length = height + 3 := by
  simp [nestedKeys]

theorem getElem?_nestedKeys (hi : i < height + 3) :
    (nestedKeys height)[i]? = some (nestedKey i) := by
  simp [nestedKeys, hi]

theorem keyed_nestedVecs (hheight : height + 3 ≤ maxTypeNodes) :
    Keyed (nestedVecs height) (nestedKeys height) where
  length_eq := by rw [length_nestedKeys, length_nestedVecs]
  eq := by
    intro i hi
    rw [length_nestedVecs] at hi
    unfold localKey
    rw [getElem?_nestedVecs hi, getElem?_nestedKeys hi, bind_some]
    match i, hi with
    | 0, _ | 1, _ | 2, _ => rfl
    | i + 3, hi =>
      -- a `Vec` adds its tag and the length of the key below
      have hlen : 5 * (i + 3 - 2) + 1 = 1 + (4 + (5 * (i + 2 - 2) + 1)) := by omega
      have hbound : 1 + (4 + (5 * (i + 2 - 2) + 1)) < 2 ^ 64 := by
        have := (show maxTypeNodes ≤ 2 ^ 16 by decide)
        omega
      simp only [nestedKind, keyError, keyChild, getElem?_nestedKeys (Nat.lt_of_succ_lt hi),
        bind_some, CanonicalKey.new, nestedKey, keyLead, hlen]
      exact if_pos ⟨by simp, hbound⟩

/-- A `Vec` is numbered after its element, so every key is built when it is asked for. -/
theorem withinKeyDepth_nestedVecs : WithinKeyDepth (nestedVecs height) := by
  intro i hi k c hlead hfirst
  have hlt (i c : ℕ) (hc : keyChildAt (nestedVecs height) i = some c) : c < i := by
    obtain ⟨node, hnode, hchild⟩ := bind_eq_some_iff.mp hc
    have hi := length_nestedVecs height ▸ (List.getElem?_eq_some_iff.mp hnode).1
    rw [getElem?_nestedVecs hi] at hnode
    cases hnode
    match i, hchild with
    | i + 3, hchild => cases hchild; exact Nat.lt_succ_self _
  cases hlead with
  | zero => exact Nat.zero_le _
  | succ hc hd => exact absurd hd (hfirst _ (hlt _ _ hc) _)

theorem passed_nestedVecs (hheight : height + 3 ≤ maxTypeNodes) :
    passed (canonicalKeys (nestedVecs height)) = .done (nestedKeys height) :=
  passed_eq_done.mpr ((canonicalKeys_eq (admitted_nestedVecs hheight).keyChildrenInRange _).mpr
    ⟨keyed_nestedVecs hheight, withinKeyDepth_nestedVecs⟩)

theorem keyBytes_nestedKeys_inj {j : ℕ} (hi : i < height + 3) (hj : j < height + 3)
    (hheight : height + 3 ≤ maxTypeNodes)
    (h : keyBytes (nestedKeys height) i = keyBytes (nestedKeys height) j) : i = j := by
  have hshort (i : ℕ) (hi : i < height + 3) : (nestedKey i).encodedLen < 2 ^ 32 := by
    have := (show maxTypeNodes ≤ 2 ^ 16 by decide)
    show 5 * (i - 2) + 1 < 2 ^ 32
    omega
  have hlength (i : ℕ) (hi : i < height + 3) :
      (keyBytes (nestedKeys height) i).length = 5 * (i - 2) + 1 :=
    (keyed_nestedVecs hheight).length_keyBytes (getElem?_nestedKeys hi) (hshort i hi)
  have hsame : 5 * (i - 2) + 1 = 5 * (j - 2) + 1 := by
    rw [← hlength i hi, h, hlength j hj]
  -- only the primitives have keys of one length
  have hprimitive (i : ℕ) (hi : i < height + 3) (htwo : i ≤ 2) :
      keyBytes (nestedKeys height) i = [i] := by
    unfold keyBytes
    rw [getElem?_nestedKeys hi]
    match i, htwo with
    | 0, _ | 1, _ | 2, _ => simp [flattenKey, getElem?_nestedKeys hi, nestedKey, nestedKind,
        keyLead, keyChild]
  by_cases htwo : i ≤ 2
  · rw [hprimitive i hi htwo, hprimitive j hj (by omega)] at h
    exact singleton_injective h
  · omega

variable (sha256 : List ℕ → List ℕ) (hheight : height + 3 ≤ maxTypeNodes) (target : StorageTarget)

include hheight

theorem verifyKeyed_nestedVecs : ∃ layouts, verifyKeyed sha256 (nestedVecs height) nestedSources
      target (nestedKeys height) = .done layouts := by
  have hbound : maxTypeNodes ≤ 2 ^ 16 := by decide
  refine verifyKeyed_leaves sha256 nestedSources (keyed_nestedVecs hheight)
    (fun node hnode => ?_) ?_ (fun key hkey => ?_) ?_
  · obtain ⟨i, hi, rfl⟩ := mem_nestedVecs hnode
    rw [length_nestedVecs]
    exact leaf_nestedKind hi
  · rw [length_nestedVecs]
    omega
  · obtain ⟨i, hi, rfl⟩ := mem_map.mp hkey
    have hi := mem_range.mp hi
    show 5 * (i - 2) + 1 < 2 ^ 32
    omega
  · rw [length_nestedKeys]
    refine List.Nodup.map_on (fun i hi j hj h => ?_) nodup_range
    exact keyBytes_nestedKeys_inj (mem_range.mp hi) (mem_range.mp hj) hheight h

/-- Towers of every height up to the limit on the number of types are accepted. -/
theorem verify_nestedVecs :
    ∃ layouts, verify sha256 (nestedVecs height) nestedSources target = .done layouts := by
  obtain ⟨layouts, hlayouts⟩ := verifyKeyed_nestedVecs sha256 hheight target
  exact ⟨layouts, verify_eq_done.mpr ⟨admitted_nestedVecs hheight, nestedKeys height,
    keyed_nestedVecs hheight, withinKeyDepth_nestedVecs, hlayouts⟩⟩

end Tower

end Zryna.Layout.Aggregate
