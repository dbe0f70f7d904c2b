import Mathlib.Data.List.Lex
import Mathlib.Data.List.Sort
import Mathlib.Order.Interval.Set.Defs
import Zryna.Layout.Keys

/-!
# Canonical type identities

The third pass of the aggregate layout verifier sorts the nodes by the bytes of their keys, rejects
two nodes with one key, and seals the identity of the universe. A `TypeId` is a position in that
order.

The passes after this one read a node only through its `TypeId`. `CanonicalMap` therefore holds the
nodes in `TypeId` order with `TypeId`s for references, where the source holds the two index tables
and looks references up at every use.

SHA-256 is a parameter. `assignTypeIds_renumber`: the map does not depend on the numbering of the
graph.
-/

namespace Zryna.Layout.Aggregate

open Raw List

/-- Nodes in canonical order, and the identity of their universe. -/
structure CanonicalMap where
  types : List TypeNode
  universeIdentity : List ℕ
deriving DecidableEq

def noPayloadTypeId : ℕ := 2 ^ 32 - 1

def orderedNodes (keys : List CanonicalKey) : List ℕ :=
  (List.range keys.length).mergeSort fun left right => keyBytes keys left ≤ keyBytes keys right

/-- Two neighbours are equal. -/
def repeatsNeighbour (keys : List (List ℕ)) : Bool :=
  (keys.zip keys.tail).any fun pair => pair.1 = pair.2

/-- What the universe identity covers of one node, besides its key. Member counts fit `u32` after
the preflight. -/
def universeRecord : TypeKind → Option (List ℕ)
  | .bool => some (leBytes 4 1)
  | .i32 => some (leBytes 4 2)
  | .string => some (leBytes 4 6)
  | .struct module declaration fields =>
    some (leBytes 4 3 ++ leBytes 4 module ++ leBytes 4 declaration ++ leBytes 4 fields.length
      ++ fields.flatMap fun field => leBytes 4 field.ordinal ++ leBytes 4 field.ty)
  | .enum module declaration variants =>
    some (leBytes 4 4 ++ leBytes 4 module ++ leBytes 4 declaration ++ leBytes 4 variants.length
      ++ variants.flatMap fun variant =>
        leBytes 4 variant.ordinal ++ leBytes 4 (variant.payload.getD noPayloadTypeId))
  | .fixedArray element length => some (leBytes 4 5 ++ leBytes 4 element ++ leBytes 8 length)
  | .vec element => some (leBytes 4 7 ++ leBytes 4 element)
  | .shared payload => some (leBytes 4 8 ++ leBytes 4 payload)
  | .weak payload => some (leBytes 4 9 ++ leBytes 4 payload)
  | .borrow _ => none

def asciiBytes (label : String) : List ℕ := label.toList.map Char.toNat

def universeDomain : List ℕ := asciiBytes "ZRYNA-TYPE-UNIVERSE-V1" ++ [0]

section Assign

variable (sha256 : List ℕ → List ℕ)

/-- The identity of a universe, from the length and the bytes of every key and from the node. -/
def sealUniverseIdentity (keys : List (ℕ × List ℕ)) (types : List TypeNode) :
    Report Diagnostic (Option (List ℕ)) := do
  forM keys fun key =>
    Report.limitIf (key.1 ≥ 2 ^ 32) (limitError "canonical type-key byte length" (2 ^ 32 - 1))
  pure ((types.mapM fun node => universeRecord node.kind).map fun records =>
    sha256 (universeDomain ++ leBytes 4 types.length
      ++ (keys.zip records).flatMap fun entry => leBytes 4 entry.1.1 ++ entry.1.2 ++ entry.2))

/-- The nodes in an order, with positions in the order for references. -/
def canonicalTypes (graph : Graph) (ordered : List ℕ) : List TypeNode :=
  ordered.filterMap fun index => (graph.types[index]?).map (TypeNode.rename ordered.idxOf)

def keyEntry (keys : List CanonicalKey) (index : ℕ) : ℕ × List ℕ :=
  ((keys[index]?.map CanonicalKey.encodedLen).getD 0, keyBytes keys index)

/-- Canonical identities of all nodes. A graph has at most `maxTypeNodes` nodes, so positions fit
`u32`. -/
def assignTypeIds (graph : Graph) (keys : List CanonicalKey) :
    Report Diagnostic (Option CanonicalMap) :=
  let ordered := orderedNodes keys
  if repeatsNeighbour (ordered.map (keyBytes keys)) then do
    Report.push (globalError "ZRYNA-L3001" "duplicate canonical type key"
      "provide each nominal or structural type exactly once")
    pure none
  else do
    let types := canonicalTypes graph ordered
    let universeIdentity ← sealUniverseIdentity sha256 (ordered.map (keyEntry keys)) types
    pure (universeIdentity.map fun identity => ⟨types, identity⟩)

end Assign

/-! ### The order -/

/-- Sorted keys without equal neighbours are distinct. -/
theorem repeatsNeighbour_eq_false {keys : List (List ℕ)} (h : keys.Pairwise (· ≤ ·)) :
    repeatsNeighbour keys = false ↔ keys.Nodup := by
  induction keys with
  | nil => simp [repeatsNeighbour]
  | cons a keys ih =>
    obtain ⟨ha, hkeys⟩ := pairwise_cons.mp h
    cases keys with
    | nil => simp [repeatsNeighbour]
    | cons b keys =>
      have hstep : repeatsNeighbour (a :: b :: keys)
          = (decide (a = b) || repeatsNeighbour (b :: keys)) := rfl
      rw [hstep, Bool.or_eq_false_iff, ih hkeys, decide_eq_false_iff_not]
      conv_rhs => rw [nodup_cons]
      refine and_congr_left fun _ => not_congr ⟨fun hab => by rw [hab]; simp, fun hmem => ?_⟩
      -- an equal key further on lies between its neighbours
      refine le_antisymm (ha b (by simp)) ?_
      obtain rfl | hmem := mem_cons.mp hmem
      · exact le_rfl
      · exact (pairwise_cons.mp hkeys).1 a hmem

theorem perm_orderedNodes (keys : List CanonicalKey) :
    (orderedNodes keys).Perm (List.range keys.length) :=
  mergeSort_perm _ _

theorem pairwise_orderedNodes (keys : List CanonicalKey) :
    (orderedNodes keys).Pairwise fun left right => keyBytes keys left ≤ keyBytes keys right := by
  refine (pairwise_mergeSort ?_ ?_ _).imp fun h => by simpa using h
  · intro a b c hab hbc
    simp only [decide_eq_true_eq] at hab hbc ⊢
    exact hab.trans hbc
  · intro a b
    simpa using le_total (keyBytes keys a) (keyBytes keys b)

theorem orderedNodes_distinct (keys : List CanonicalKey) :
    repeatsNeighbour ((orderedNodes keys).map (keyBytes keys)) = false ↔
      ((List.range keys.length).map (keyBytes keys)).Nodup := by
  rw [repeatsNeighbour_eq_false (pairwise_map.mpr (pairwise_orderedNodes keys))]
  exact ((perm_orderedNodes keys).map _).nodup_iff

/-! ### The nodes in order -/

theorem length_canonicalTypes {graph : Graph} {ordered : List ℕ}
    (h : ∀ i ∈ ordered, i < graph.types.length) :
    (canonicalTypes graph ordered).length = ordered.length := by
  unfold canonicalTypes
  generalize ordered.idxOf = typeId
  induction ordered with
  | nil => rfl
  | cons index ordered ih =>
    obtain ⟨hindex, hordered⟩ := forall_mem_cons.mp h
    rw [filterMap_cons, getElem?_eq_getElem hindex]
    exact congrArg Nat.succ (ih hordered)

/-- Nodes in an order, node by node. -/
theorem getElem?_canonicalTypes {graph : Graph} {ordered : List ℕ}
    (h : ∀ i ∈ ordered, i < graph.types.length) (k : ℕ) :
    (canonicalTypes graph ordered)[k]? = (ordered[k]?).bind fun index =>
      (graph.types[index]?).map (TypeNode.rename ordered.idxOf) := by
  unfold canonicalTypes
  generalize ordered.idxOf = typeId
  induction ordered generalizing k with
  | nil => rfl
  | cons index ordered ih =>
    obtain ⟨hindex, hordered⟩ := forall_mem_cons.mp h
    rw [filterMap_cons, getElem?_eq_getElem hindex, Option.map_some]
    cases k with
    | zero => simp [getElem?_eq_getElem hindex]
    | succ k => exact ih hordered k

/-- A position in the order is a `TypeId`, one to one. -/
theorem bijOn_idxOf {ordered : List ℕ} {n : ℕ} (hperm : ordered.Perm (List.range n)) :
    Set.BijOn ordered.idxOf (Set.Iio n) (Set.Iio n) := by
  have hlength : ordered.length = n := hperm.length_eq.trans length_range
  have hmem (i : ℕ) : i ∈ ordered ↔ i < n := by
    rw [hperm.mem_iff, mem_range]
  refine ⟨fun i hi => ?_, fun i hi j _ hij => ?_, fun k hk => ?_⟩
  · exact (idxOf_lt_length_iff.mpr ((hmem i).mpr hi)).trans_eq hlength
  · exact idxOf_inj ((hmem i).mpr hi) |>.mp hij
  · have hk' : k < ordered.length := hlength.symm ▸ hk
    refine ⟨ordered[k], (hmem _).mp (getElem_mem hk'), ?_⟩
    exact (hperm.nodup_iff.mpr nodup_range).idxOf_getElem k hk'

theorem types_assignTypeIds {sha256 : List ℕ → List ℕ} {graph : Graph} {keys : List CanonicalKey}
    {canonical : CanonicalMap} (h : (assignTypeIds sha256 graph keys).value = some canonical) :
    canonical.types = canonicalTypes graph (orderedNodes keys) := by
  unfold assignTypeIds at h
  dsimp only at h
  split at h
  · cases h
  · rw [Report.value_bind, Report.value_pure, Option.map_eq_some_iff] at h
    obtain ⟨identity, -, rfl⟩ := h
    rfl

/-! ### Renumbering -/

section Renumbering

variable {σ : Equiv.Perm ℕ} {graph graph' : Graph} {keys keys' : List CanonicalKey}

/-- An injective map keeps positions. -/
theorem idxOf_map {α β : Type} [DecidableEq α] [DecidableEq β] {f : α → β}
    (hf : Function.Injective f) (xs : List α) (a : α) : (xs.map f).idxOf (f a) = xs.idxOf a := by
  induction xs with
  | nil => rfl
  | cons b xs ih =>
    rw [map_cons, idxOf_cons, idxOf_cons, ih]
    by_cases hab : b = a
    · subst hab
      simp
    · rw [beq_false_of_ne hab, beq_false_of_ne (hf.ne hab)]

theorem perm_map_range {n : ℕ} (hσ : ∀ i, σ i < n ↔ i < n) :
    ((List.range n).map σ).Perm (List.range n) := by
  rw [perm_ext_iff_of_nodup (nodup_range.map σ.injective) nodup_range]
  intro i
  rw [mem_map, mem_range]
  constructor
  · rintro ⟨j, hj, rfl⟩
    exact (hσ j).mpr (mem_range.mp hj)
  · intro hi
    refine ⟨σ.symm i, mem_range.mpr ((hσ _).mp ?_), σ.apply_symm_apply i⟩
    rwa [Equiv.apply_symm_apply]

section

variable (hσ : ∀ i, σ i < keys.length ↔ i < keys.length) (hlength : keys'.length = keys.length)
  (hkeys : RenamedKeys σ keys keys')

include hσ hlength hkeys

/-- The keys of a graph and of its renumbering have the same bytes, in another order. -/
theorem perm_keyBytes_renumber :
    ((List.range keys'.length).map (keyBytes keys')).Perm
      ((List.range keys.length).map (keyBytes keys)) := by
  rw [hlength]
  refine ((perm_map_range hσ).map (keyBytes keys')).symm.trans ?_
  rw [map_map]
  exact .of_eq (map_congr_left fun i _ => keyBytes_renumber hkeys i)

theorem orderedNodes_renumber (hdistinct : ((List.range keys.length).map (keyBytes keys)).Nodup) :
    orderedNodes keys' = (orderedNodes keys).map σ := by
  have hperm : (orderedNodes keys').Perm ((orderedNodes keys).map σ) := by
    refine (perm_orderedNodes keys').trans ?_
    rw [hlength]
    exact (perm_map_range hσ).symm.trans ((perm_orderedNodes keys).map σ).symm
  have hsorted : ((orderedNodes keys).map σ).Pairwise fun left right =>
      keyBytes keys' left ≤ keyBytes keys' right := by
    rw [pairwise_map]
    refine (pairwise_orderedNodes keys).imp fun h => ?_
    rwa [keyBytes_renumber hkeys, keyBytes_renumber hkeys]
  refine hperm.eq_of_pairwise (fun a b ha hb hab hba => ?_) (pairwise_orderedNodes keys') hsorted
  have hdistinct' := (perm_keyBytes_renumber hσ hlength hkeys).nodup_iff.mpr hdistinct
  refine inj_on_of_nodup_map hdistinct' ?_ ?_ (le_antisymm hab hba)
  · exact (perm_orderedNodes keys').mem_iff.mp ha
  · exact (perm_orderedNodes keys').mem_iff.mp (hperm.mem_iff.mpr hb)

end

theorem canonicalTypes_renumber (h : Renumbers σ graph graph') (ordered : List ℕ) :
    canonicalTypes graph' (ordered.map σ) = canonicalTypes graph ordered := by
  unfold canonicalTypes
  rw [filterMap_map]
  refine filterMap_congr fun index _ => ?_
  rw [Function.comp_apply, h.types, Option.map_map]
  cases graph.types[index]? with
  | none => rfl
  | some node =>
    rw [Option.map_some, Option.map_some, Function.comp_apply, TypeNode.rename_rename]
    congr 2
    funext id
    exact idxOf_map σ.injective ordered id

/-- Canonical identities do not depend on the numbering. -/
theorem assignTypeIds_renumber (sha256 : List ℕ → List ℕ) (h : Renumbers σ graph graph')
    (hkeyed : Keyed graph keys) (hkeyed' : Keyed graph' keys') (hkeys : RenamedKeys σ keys keys') :
    assignTypeIds sha256 graph' keys' = assignTypeIds sha256 graph keys := by
  have hlength : keys'.length = keys.length := by
    rw [hkeyed.length_eq, hkeyed'.length_eq, h.length_eq]
  have hσ : ∀ i, σ i < keys.length ↔ i < keys.length := hkeyed.length_eq ▸ h.lt_iff
  have hperm := perm_keyBytes_renumber hσ hlength hkeys
  unfold assignTypeIds
  dsimp only
  cases hrepeats : repeatsNeighbour ((orderedNodes keys).map (keyBytes keys)) with
  | true =>
    have hrepeats' : repeatsNeighbour ((orderedNodes keys').map (keyBytes keys')) = true := by
      rw [← Bool.not_eq_false, orderedNodes_distinct] at hrepeats ⊢
      rwa [hperm.nodup_iff]
    rw [hrepeats']
    rfl
  | false =>
    have hdistinct := (orderedNodes_distinct keys).mp hrepeats
    have hrepeats' : repeatsNeighbour ((orderedNodes keys').map (keyBytes keys')) = false := by
      rw [orderedNodes_distinct, hperm.nodup_iff]
      exact hdistinct
    have hentries (ordered : List ℕ) :
        (ordered.map σ).map (keyEntry keys') = ordered.map (keyEntry keys) := by
      rw [map_map]
      refine map_congr_left fun i _ => ?_
      rw [Function.comp_apply, keyEntry, keyEntry, keyBytes_renumber hkeys, hkeys]
      cases keys[i]? <;> rfl
    rw [hrepeats', orderedNodes_renumber hσ hlength hkeys hdistinct]
    simp only [Bool.false_eq_true, if_false]
    rw [canonicalTypes_renumber h, hentries]

end Renumbering

end Zryna.Layout.Aggregate
