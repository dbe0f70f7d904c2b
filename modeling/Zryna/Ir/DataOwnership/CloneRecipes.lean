import Mathlib.Data.Bool.Count
import Mathlib.Data.Finset.Sort
import Mathlib.Data.List.GetD
import Zryna.Foundation.Frontier
import Zryna.Foundation.Spreading
import Zryna.Ir.DataOwnership.Replay

/-!
# Recursive clones and their recipes

The verifier admits recursive clones by a classification of all types, made once for a program by
spreading what forbids a clone from children to parents. A backend asks an accepted clone for its
frontier, the types it meets, which is collected from the root downwards and is empty when a type on
the way forbids the clone.

`cloneClasses_agree`: the two walks agree on every sealed universe, whatever its cycles through
vectors, so the frontier of an accepted clone is never the empty one.
-/

namespace Zryna.Ir.DataOwnership

open Layout Report Relation List

/-! ### The walks down -/

section Recipes

variable (layouts : VerifiedLayouts)

/-- The types that a clone of a record goes on with, and nothing for a vector whose elements take
no storage. What happens at a handle depends on the clone. -/
def cloneChildren (atHandle : Option (List ℕ)) (record : VerifiedType) : Option (List ℕ) :=
  match record.kind with
  | .bool | .i32 | .string => some []
  | .struct _ _ fields => some (fields.map VerifiedField.ty)
  | .enum _ _ variants => some (variants.filterMap VerifiedVariant.payload)
  | .fixedArray element _ => some [element]
  | .vec element => do
    let record ← layouts.typeById element
    if record.size = 0 then none else some [element]
  | .shared _ | .weak _ => atHandle

def cloneFrontier (atHandle : Option (List ℕ)) : Frontier ℕ where
  children ty := (layouts.typeById ty).bind (cloneChildren layouts atHandle)
  bound := Finset.range layouts.records.length
  inside := by
    intro ty hsome
    obtain ⟨children, hchildren⟩ := Option.isSome_iff_exists.mp hsome
    obtain ⟨record, hrecord, -⟩ := Option.bind_eq_some_iff.mp hchildren
    exact Finset.mem_range.mpr (List.getElem?_eq_some_iff.mp hrecord).1

/-- The types that a generic clone meets. -/
def reachableTypes (root : ℕ) : Option (Finset ℕ) := (cloneFrontier layouts none).gather ∅ [root]

/-- One node in the sealed, type-directed clone recipe. -/
inductive HandleCloneRecipeKind where
  | copy
  | stringClone
  | struct (fields : List (ℕ × ℕ))
  | enum (variants : List (ℕ × Option ℕ))
  | fixedArray (element length : ℕ)
  | vecEach (element : ℕ)
  | sharedCountClone
  | weakCountClone
deriving DecidableEq

/-- The types that a node lists. -/
def HandleCloneRecipeKind.children : HandleCloneRecipeKind → List ℕ
  | .struct fields => fields.map Prod.snd
  | .enum variants => variants.filterMap Prod.snd
  | .fixedArray element _ | .vecEach element => [element]
  | _ => []

structure HandleCloneRecipeNode where
  ty : ℕ
  kind : HandleCloneRecipeKind
deriving DecidableEq

def recipeKind : VerifiedKind → HandleCloneRecipeKind
  | .bool | .i32 => .copy
  | .string => .stringClone
  | .struct _ _ fields => .struct (fields.map fun field => (field.ordinal, field.ty))
  | .enum _ _ variants =>
    .enum (variants.map fun variant => (variant.ordinal, variant.payload))
  | .fixedArray element length => .fixedArray element length
  | .vec element => .vecEach element
  | .shared _ => .sharedCountClone
  | .weak _ => .weakCountClone

/-- The nodes of a handle-aware clone, in the order of the types. -/
def recipe (root : ℕ) : Option (List HandleCloneRecipeNode) := do
  let reached ← (cloneFrontier layouts (some [])).gather ∅ [root]
  reached.sort.mapM fun ty =>
    (layouts.typeById ty).map fun record => ⟨ty, recipeKind record.kind⟩

/-! ### The frontiers of clones -/

/-- Where a clone reads. -/
inductive CloneSource where
  | place (place : ℕ)
  | borrow (borrow : ℕ)
deriving DecidableEq

/-- One sealed recursive clone: its source, the temporary it is built in, and its result. -/
structure RecursiveClone where
  source : CloneSource
  destination : ℕ
  result : ℕ
  ty : ℕ
  cleanup : ℕ
  prefixCleanup : ℕ
deriving DecidableEq

section

variable (function : Function) (instruction : Instruction)

/-- The clone that an instruction with these operands makes. -/
def RecursiveClone.of (operands : CloneSource × ℕ × ℕ) : Option RecursiveClone := do
  let (source, cleanup, prefixCleanup) := operands
  let result ← instruction.result
  let destination ← uniqueTemporaryOwner function result.id result.ty
  let record ← layoutType layouts result.ty
  some ⟨source, destination, result.id, record.id, cleanup, prefixCleanup⟩

def genericClone : Option RecursiveClone :=
  match instruction.kind with
  | .genericClonePlace place cleanup prefixCleanup =>
    RecursiveClone.of layouts function instruction (.place place, cleanup, prefixCleanup)
  | .genericCloneBorrow borrow cleanup prefixCleanup =>
    RecursiveClone.of layouts function instruction (.borrow borrow, cleanup, prefixCleanup)
  | _ => none

def handleAwareClone : Option RecursiveClone :=
  match instruction.kind with
  | .handleAwareClonePlace place cleanup prefixCleanup =>
    RecursiveClone.of layouts function instruction (.place place, cleanup, prefixCleanup)
  | .handleAwareCloneBorrow borrow cleanup prefixCleanup =>
    RecursiveClone.of layouts function instruction (.borrow borrow, cleanup, prefixCleanup)
  | _ => none

end

def frontierTypes (clone : RecursiveClone) : List VerifiedType :=
  ((reachableTypes layouts clone.ty).getD ∅).sort.filterMap layouts.typeById

def frontierNodes (clone : RecursiveClone) : List HandleCloneRecipeNode :=
  (recipe layouts clone.ty).getD []

end Recipes

/-! ### The relation -/

/-- A type refers to another in a field, a payload or as an element. Handles are not entered. -/
def Refers (layouts : VerifiedLayouts) (u v : ℕ) : Prop :=
  ∃ record, layouts.typeById u = some record ∧ v ∈ structuralChildren record

/-- What a clone of the type meets. -/
def Meets (layouts : VerifiedLayouts) : ℕ → ℕ → Prop := ReflTransGen (Refers layouts)

section Walks

variable {layouts : VerifiedLayouts}

theorem structuralChildren_subset (record : VerifiedType) :
    structuralChildren record ⊆ record.allChildren := by
  obtain ⟨id, kind, size, dropKind⟩ := record
  cases kind with
  | struct | enum | fixedArray => exact subset_append_left _ _
  | vec => exact subset_append_right _ _
  | _ => exact nil_subset _

theorem Refers.lt {u v : ℕ} (h : Refers layouts u v) : v < layouts.records.length := by
  obtain ⟨record, hrecord, hv⟩ := h
  exact layouts.isSealed.children_lt record (mem_of_getElem? hrecord) v
    (structuralChildren_subset record hv)

theorem Meets.lt {u v : ℕ} (h : Meets layouts u v) (hu : u < layouts.records.length) :
    v < layouts.records.length := by
  induction h with
  | refl => exact hu
  | tail _ hstep => exact hstep.lt

variable {atHandle : Option (List ℕ)} {marked : List Bool} {pending : List ℕ} {parents : ℕ → List ℕ}

section

variable (hleaf : ∀ children ∈ atHandle, children = [])

include hleaf

/-- A record is refused for a vector without storage, or for a handle when there is nothing to do
at handles. -/
theorem cloneChildren_eq_some {record : VerifiedType} {children : List ℕ} :
    cloneChildren layouts atHandle record = some children
      ↔ unsizedContainer layouts record = false
        ∧ (isHandle record = true → atHandle.isSome = true)
        ∧ structuralChildren record = children := by
  unfold cloneChildren unsizedContainer isHandle structuralChildren
  cases record.kind with
  | vec element =>
    cases helement : layouts.typeById element with
    | none => simp [helement]
    | some record => by_cases hsize : record.size = 0 <;> simp [helement, hsize]
  | shared | weak =>
    cases atHandle with
    | none => simp
    | some leaf =>
      obtain rfl := hleaf leaf rfl
      simp
  | _ => simp

theorem leads_cloneFrontier {u v : ℕ} (h : (cloneFrontier layouts atHandle).Leads u v) :
    Refers layouts u v := by
  obtain ⟨children, hchildren, hv⟩ := h
  obtain ⟨record, hrecord, hchildren⟩ := Option.bind_eq_some_iff.mp hchildren
  obtain ⟨-, -, rfl⟩ := (cloneChildren_eq_some hleaf).mp hchildren
  exact ⟨record, hrecord, hv⟩

/-- A type on the way forbids the clone. -/
def Forbids (layouts : VerifiedLayouts) (handles : Bool) (v : ℕ) : Prop :=
  ∃ record, layouts.typeById v = some record
    ∧ (handles = true ∧ isHandle record = true ∨ unsizedContainer layouts record = true)

theorem children_cloneFrontier {v : ℕ} (hv : v < layouts.records.length) :
    ((cloneFrontier layouts atHandle).children v).isSome = true
      ↔ ¬ Forbids layouts atHandle.isNone v := by
  have hrecord : layouts.typeById v = some layouts.records[v] := getElem?_eq_getElem hv
  have hchildren : (cloneFrontier layouts atHandle).children v
      = cloneChildren layouts atHandle layouts.records[v] := by
    simp only [cloneFrontier, hrecord, Option.bind_some]
  rw [hchildren, Option.isSome_iff_exists]
  simp only [cloneChildren_eq_some hleaf, Forbids, hrecord, Option.some.injEq, exists_eq_left',
    exists_and_left, exists_eq', and_true]
  cases atHandle <;> cases isHandle layouts.records[v] <;>
    cases unsizedContainer layouts layouts.records[v] <;> simp

/-- **The walk down** meets what the type refers to, and returns unless some type forbids it. -/
theorem gather_cloneFrontier {root : ℕ} (hroot : root < layouts.records.length) :
    (((cloneFrontier layouts atHandle).gather ∅ [root]).isSome = true
      ↔ ∀ v, Meets layouts root v → ¬ Forbids layouts atHandle.isNone v)
    ∧ ∀ reached, (cloneFrontier layouts atHandle).gather ∅ [root] = some reached →
      ∀ v, v ∈ reached ↔ Meets layouts root v := by
  have hdown {v : ℕ} (h : ReflTransGen (cloneFrontier layouts atHandle).Leads root v) :
      Meets layouts root v :=
    ReflTransGen.mono (fun _ _ => leads_cloneFrontier hleaf) _ _ h
  -- unless a type before `v` is refused, what the type refers to is met
  have hup {v : ℕ} (h : Meets layouts root v)
      (hall : ∀ u, ReflTransGen (cloneFrontier layouts atHandle).Leads root u →
        ((cloneFrontier layouts atHandle).children u).isSome = true) :
      ReflTransGen (cloneFrontier layouts atHandle).Leads root v := by
    induction h with
    | refl => exact .refl
    | @tail u v hpath hstep ih =>
      obtain ⟨children, hchildren⟩ := Option.isSome_iff_exists.mp (hall u ih)
      refine ih.tail ⟨children, hchildren, ?_⟩
      obtain ⟨record, hrecord, hv⟩ := hstep
      obtain ⟨record', hrecord', hchildren⟩ := Option.bind_eq_some_iff.mp hchildren
      obtain rfl : record = record' := Option.some.inj (hrecord.symm.trans hrecord')
      exact ((cloneChildren_eq_some hleaf).mp hchildren).2.2 ▸ hv
  have hsome := @Frontier.gather_isSome ℕ (cloneFrontier layouts atHandle) root _
  refine ⟨hsome.trans ⟨fun hall v hv => ?_, fun hall v hv => ?_⟩, fun reached hreached v => ?_⟩
  · exact (children_cloneFrontier hleaf (hv.lt hroot)).mp (hall v (hup hv hall))
  · exact (children_cloneFrontier hleaf ((hdown hv).lt hroot)).mpr (hall v (hdown hv))
  · rw [Frontier.gather_eq_some hreached]
    exact ⟨hdown, fun hv => hup hv (hsome.mp (by rw [hreached]; rfl))⟩

end

/-! ### The spread up -/

/-- One step of `propagateRounds` unsets the negated marks. -/
theorem foldl_propagate {vs : List ℕ} (hvs : ∀ v ∈ vs, v < marked.length) :
    vs.foldl (fun (marked, pending) parent =>
        if marked.getD parent false then (marked, pending)
        else (marked.set parent true, parent :: pending)) (marked, pending)
      = ((unset (marked.map (!·)) pending vs).1.map (!·), (unset (marked.map (!·)) pending vs).2) := by
  induction vs generalizing marked pending with
  | nil => simp [unset, Function.comp_def]
  | cons v vs ih =>
    obtain ⟨hv, hvs⟩ := forall_mem_cons.mp hvs
    rw [foldl_cons, unset]
    cases hmark : marked[v] with
    | true =>
      have hget : marked.getD v false = true := by simp [getD_eq_getElem?_getD, hv, hmark]
      have hflag : (marked.map (!·))[v]? ≠ some true := by simp [hv, hmark]
      rw [if_neg hflag]
      simp only [hget, if_true]
      exact ih hvs
    | false =>
      have hget : marked.getD v false = false := by simp [getD_eq_getElem?_getD, hv, hmark]
      have hflag : (marked.map (!·))[v]? = some true := by simp [hv, hmark]
      have hset : (marked.set v true).map (!·) = (marked.map (!·)).set v false := by
        rw [map_set]
        rfl
      rw [if_pos hflag, ← hset]
      simp only [hget, Bool.false_eq_true, if_false]
      exact ih fun u hu => by rw [length_set]; exact hvs u hu

/-- With enough rounds, marks spread as the unset flags of `spread` do. -/
theorem propagateRounds_eq (fuel : ℕ) (hrange : ∀ v, ∀ u ∈ parents v, u < marked.length)
    (hfuel : (marked.map (!·)).count true + pending.length < fuel) :
    propagateRounds parents fuel pending marked
      = (spread parents (marked.map (!·)) pending).map (!·) := by
  induction fuel generalizing pending marked with
  | zero => exact absurd hfuel (Nat.not_lt_zero _)
  | succ fuel ih =>
    cases pending with
    | nil => simp [propagateRounds, spread, Function.comp_def]
    | cons child pending =>
      rw [propagateRounds, spread, foldl_propagate (hrange child)]
      have hnot : ((unset (marked.map (!·)) pending (parents child)).1.map (!·)).map (!·)
          = (unset (marked.map (!·)) pending (parents child)).1 := by
        simp [Function.comp_def]
      dsimp only
      rw [ih, hnot]
      · simpa using hrange
      · rw [hnot, count_unset]
        rw [length_cons] at hfuel
        omega

/-- **What is marked at the end** leads to something that was marked at the beginning. -/
theorem getD_propagateMarks (hrange : ∀ v, ∀ u ∈ parents v, u < marked.length) (v : ℕ) :
    (propagateMarks parents marked).getD v false = true
      ↔ ∃ w, marked.getD w false = true ∧ ReflTransGen (fun a b => a ∈ parents b) v w := by
  have hflag (marks : List Bool) (u : ℕ) :
      (marks.map (!·))[u]? = some false ↔ marks.getD u false = true := by
    rw [getElem?_map, getD_eq_getElem?_getD]
    cases marks[u]? <;> simp
  have hpending (u : ℕ) : u ∈ ((List.range marked.length).filter fun index =>
      marked.getD index false).reverse ↔ (marked.map (!·))[u]? = some false := by
    rw [mem_reverse, mem_filter, mem_range, hflag]
    refine and_iff_right_of_imp fun hu => ?_
    by_contra hge
    rw [getD_eq_default _ _ (Nat.not_lt.mp hge)] at hu
    cases hu
  have hrange' : ∀ v, ∀ u ∈ parents v, u < (marked.map (!·)).length := by simpa using hrange
  have hcount : (marked.map (!·)).count true
      + ((List.range marked.length).filter fun index => marked.getD index false).reverse.length
        < marked.length + 1 := by
    have hseeds : (List.range marked.length).countP (fun index => marked.getD index false)
        = marked.count true := by
      have hmap : (List.range marked.length).map (fun index => marked.getD index false)
          = marked := by
        refine ext_getElem (by simp) fun i hi hi' => ?_
        simp [getD_eq_getElem?_getD, hi']
      conv_rhs => rw [← hmap, count_eq_countP, countP_map]
      exact countP_congr fun i _ => by simp
    have hnegated : (marked.map (!·)).count true = marked.count false := by
      rw [count_eq_countP, countP_map, count_eq_countP]
      exact countP_congr fun b _ => by cases b <;> simp
    rw [length_reverse, ← countP_eq_length_filter, hseeds, hnegated, Nat.add_comm,
      count_true_add_count_false]
    exact Nat.lt_succ_self _
  rw [propagateMarks, propagateRounds_eq _ hrange hcount, ← hflag, List.map_map]
  have hid : ((!·) ∘ (!·) : Bool → Bool) = id := funext Bool.not_not
  rw [hid, map_id, spread_spec hrange' hpending]
  simp only [hflag]

theorem mem_typeParents {u v : ℕ} :
    u ∈ typeParents layouts structuralChildren v ↔ Refers layouts u v := by
  have hid := layouts.isSealed.id_eq
  unfold typeParents Refers
  rw [mem_map]
  constructor
  · rintro ⟨record, hrecord, rfl⟩
    obtain ⟨hmem, hv⟩ := mem_filter.mp hrecord
    obtain ⟨i, hi⟩ := mem_iff_getElem?.mp hmem
    exact ⟨record, hid i record hi ▸ hi, of_decide_eq_true hv⟩
  · rintro ⟨record, hrecord, hv⟩
    exact ⟨record, mem_filter.mpr ⟨mem_of_getElem? hrecord, decide_eq_true hv⟩,
      hid u record hrecord⟩

/-- The classification marks what meets a record of a kind. -/
theorem getD_classify (p : VerifiedType → Bool) (v : ℕ) :
    (propagateMarks (typeParents layouts structuralChildren) (layouts.records.map p)).getD v false
        = true
      ↔ ∃ w record, Meets layouts v w ∧ layouts.typeById w = some record ∧ p record = true := by
  rw [getD_propagateMarks]
  · simp only [mem_typeParents, getD_eq_getElem?_getD, getElem?_map, Meets]
    refine exists_congr fun w => ?_
    unfold VerifiedLayouts.typeById
    cases layouts.records[w]? <;> simp [and_comm]
  · intro v u hu
    obtain ⟨record, hrecord, -⟩ := mem_typeParents.mp hu
    rw [length_map]
    exact (List.getElem?_eq_some_iff.mp hrecord).1

/-! ### Agreement -/

theorem isSome_reachableTypes {root : ℕ} (hroot : root < layouts.records.length) :
    (reachableTypes layouts root).isSome = true
      ↔ ∀ v record, Meets layouts root v → layouts.typeById v = some record →
        isHandle record = false ∧ unsizedContainer layouts record = false := by
  rw [reachableTypes, (gather_cloneFrontier (by simp) hroot).1]
  refine forall_congr' fun v => ⟨fun h record hv hrecord => ?_, fun h hv => ?_⟩
  · rw [← Bool.not_eq_true, ← Bool.not_eq_true, ← not_or]
    exact fun hbad => h hv ⟨record, hrecord, hbad.imp_left fun hhandle => ⟨rfl, hhandle⟩⟩
  · rintro ⟨record, hrecord, hbad⟩
    obtain ⟨hhandle, hsized⟩ := h record hv hrecord
    rw [hhandle, hsized] at hbad
    simp at hbad

/-- The nodes of a recipe: what the clone meets, once each and in order, with all children. -/
structure RecipeLists (layouts : VerifiedLayouts) (root : ℕ) (nodes : List HandleCloneRecipeNode) :
    Prop where
  ordered : (nodes.map HandleCloneRecipeNode.ty).Pairwise (· < ·)
  mem_iff : ∀ v, v ∈ nodes.map HandleCloneRecipeNode.ty ↔ Meets layouts root v
  kind_eq : ∀ node ∈ nodes, ∃ record, layouts.typeById node.ty = some record
    ∧ node.kind = recipeKind record.kind ∧ node.kind.children = structuralChildren record
  children_mem : ∀ node ∈ nodes, ∀ child ∈ node.kind.children,
    child ∈ nodes.map HandleCloneRecipeNode.ty

def recipeNode (layouts : VerifiedLayouts) (ty : ℕ) : HandleCloneRecipeNode :=
  ⟨ty, ((layouts.typeById ty).map fun record => recipeKind record.kind).getD .copy⟩

theorem children_recipeKind (record : VerifiedType) :
    (recipeKind record.kind).children = structuralChildren record := by
  unfold structuralChildren
  cases record.kind <;>
    simp [recipeKind, HandleCloneRecipeKind.children, Function.comp_def, filterMap_map]

theorem mapM_recipeNode {tys : List ℕ} (h : ∀ ty ∈ tys, ty < layouts.records.length) :
    tys.mapM (fun ty => (layouts.typeById ty).map fun record =>
      (⟨ty, recipeKind record.kind⟩ : HandleCloneRecipeNode))
      = some (tys.map (recipeNode layouts)) := by
  induction tys with
  | nil => rfl
  | cons ty tys ih =>
    obtain ⟨hty, htys⟩ := forall_mem_cons.mp h
    have hrecord : layouts.typeById ty = some layouts.records[ty] := getElem?_eq_getElem hty
    simp [ih htys, hrecord, recipeNode]

theorem recipe_spec {root : ℕ} (hroot : root < layouts.records.length) :
    ((recipe layouts root).isSome = true
      ↔ ∀ v record, Meets layouts root v → layouts.typeById v = some record →
        unsizedContainer layouts record = false)
    ∧ ∀ nodes, recipe layouts root = some nodes → RecipeLists layouts root nodes := by
  obtain ⟨hsome, hmem⟩ := @gather_cloneFrontier layouts (some []) (by simp) root hroot
  have hforbids (v : ℕ) : ¬ Forbids layouts (some ([] : List ℕ)).isNone v
      ↔ ∀ record, layouts.typeById v = some record → unsizedContainer layouts record = false := by
    simp [Forbids]
  have hrecipe {reached : Finset ℕ}
      (hreached : (cloneFrontier layouts (some [])).gather ∅ [root] = some reached) :
      recipe layouts root = some (reached.sort.map (recipeNode layouts)) := by
    rw [recipe, hreached]
    refine mapM_recipeNode fun v hv => ?_
    exact ((hmem reached hreached v).mp ((Finset.mem_sort _).mp hv)).lt hroot
  constructor
  · have hiff : (recipe layouts root).isSome = true
        ↔ ((cloneFrontier layouts (some [])).gather ∅ [root]).isSome = true := by
      cases hreached : (cloneFrontier layouts (some [])).gather ∅ [root] with
      | none => simp [recipe, hreached]
      | some reached => simp [hrecipe hreached]
    rw [hiff, hsome]
    simp only [hforbids]
    exact forall_congr' fun v => ⟨fun h record hv => h hv record, fun h hv record => h record hv⟩
  · intro nodes hnodes
    cases hreached : (cloneFrontier layouts (some [])).gather ∅ [root] with
    | none => simp [recipe, hreached] at hnodes
    | some reached =>
      rw [hrecipe hreached, Option.some.injEq] at hnodes
      subst hnodes
      have htys : (reached.sort.map (recipeNode layouts)).map HandleCloneRecipeNode.ty
          = reached.sort := by
        rw [List.map_map]
        exact map_id _
      have hmem (v : ℕ) : v ∈ (reached.sort.map (recipeNode layouts)).map HandleCloneRecipeNode.ty
          ↔ Meets layouts root v := by
        rw [htys, Finset.mem_sort, hmem reached hreached]
      have hkind : ∀ node ∈ reached.sort.map (recipeNode layouts), ∃ record,
          layouts.typeById node.ty = some record ∧ node.kind = recipeKind record.kind
            ∧ node.kind.children = structuralChildren record := by
        intro node hnode
        have hlt := ((hmem node.ty).mp (mem_map_of_mem hnode)).lt hroot
        have hrecord : layouts.typeById node.ty = some layouts.records[node.ty] :=
          getElem?_eq_getElem hlt
        obtain ⟨ty, -, rfl⟩ := mem_map.mp hnode
        have hkind : (recipeNode layouts ty).kind = recipeKind layouts.records[ty].kind := by
          rw [recipeNode, show layouts.typeById ty = _ from hrecord]
          rfl
        exact ⟨_, hrecord, hkind, hkind ▸ children_recipeKind _⟩
      refine ⟨?_, hmem, hkind, fun node hnode child hchild => ?_⟩
      · rw [htys]
        exact reached.sortedLT_sort.pairwise
      obtain ⟨record, hrecord, -, hchildren⟩ := hkind node hnode
      rw [hmem]
      exact ((hmem node.ty).mp (mem_map_of_mem hnode)).tail
        ⟨record, hrecord, hchildren ▸ hchild⟩

/-- The types of an instruction of an accepted function are valid. -/
theorem GraphClean.operationTypesValid {function : Function} {types : CloneTypes}
    {borrows : BorrowIndex} (h : GraphClean function layouts types borrows)
    {instruction : Instruction} (hin : instruction ∈ function.instructions) :
    operationTypesValid function (valueTable function) layouts types
      (BorrowIndex.new function layouts) instruction = true := by
  obtain ⟨block, hblock, hinstruction⟩ := mem_flatMap.mp hin
  obtain ⟨b, hb⟩ := mem_iff_getElem?.mp hblock
  obtain ⟨k, hk⟩ := mem_iff_getElem?.mp hinstruction
  have hblocks := (clean_forM _ _).mp ((clean_bind _ _).mp h.operations).1
  have hinstructions := (clean_forM _ _).mp
    ((clean_bind _ _).mp (hblocks (block, b) (mem_zipIdx_iff_getElem?.mpr hb))).1
  have htypes := ((clean_bind _ _).mp
    (hinstructions (instruction, k) (mem_zipIdx_iff_getElem?.mpr hk))).2
  exact Bool.not_eq_false _ ▸ (clean_pushIf _ _).mp htypes

/-- The type of a clone is the type of its result. -/
theorem RecursiveClone.of_eq_some {function : Function} {instruction : Instruction}
    {operands : CloneSource × ℕ × ℕ} {clone : RecursiveClone}
    (h : RecursiveClone.of layouts function instruction operands = some clone) :
    instruction.result.map ValueDefinition.ty = some clone.ty
      ∧ clone.ty < layouts.records.length := by
  obtain ⟨source, cleanup, prefixCleanup⟩ := operands
  simp only [RecursiveClone.of, Option.bind_eq_bind, Option.bind_eq_some_iff, Option.some.injEq] at h
  obtain ⟨result, hresult, destination, -, record, hrecord, rfl⟩ := h
  have hid := layouts.isSealed.id_eq result.ty record hrecord
  refine ⟨?_, ?_⟩
  · rw [hresult, Option.map_some, hid]
  · exact hid ▸ (List.getElem?_eq_some_iff.mp hrecord).1

variable {function : Function} {types : CloneTypes} {borrows : BorrowIndex}
  {instruction : Instruction} {clone : RecursiveClone}

section

variable
  (hvalid : operationTypesValid function (valueTable function) layouts types borrows instruction = true)

include hvalid

/-- An accepted clone is of a type that its classification marks. -/
theorem marked_of_recursiveClone :
    (genericClone layouts function instruction = some clone →
      types.generic.getD clone.ty false = true ∧ clone.ty < layouts.records.length)
    ∧ (handleAwareClone layouts function instruction = some clone →
      types.handleAware.getD clone.ty false = true ∧ clone.ty < layouts.records.length) := by
  unfold operationTypesValid at hvalid
  constructor
  all_goals
    intro h
    first | unfold genericClone at h | unfold handleAwareClone at h
    split at h
    · next place cleanup prefixCleanup hkind =>
      obtain ⟨hty, hlt⟩ := RecursiveClone.of_eq_some h
      simp only [hkind, hty, Option.any_some, Bool.and_eq_true] at hvalid
      exact ⟨hvalid.2, hlt⟩
    · next borrow cleanup prefixCleanup hkind =>
      obtain ⟨hty, hlt⟩ := RecursiveClone.of_eq_some h
      simp only [hkind, hty, Option.any_eq_true, Bool.and_eq_true, decide_eq_true_eq,
        Option.some.injEq] at hvalid
      obtain ⟨⟨referent, access⟩, -, rfl, hmarked⟩ := hvalid
      exact ⟨hmarked, hlt⟩
    · cases h

end

theorem frontierTypes_spec {reached : Finset ℕ}
    (h : reachableTypes layouts clone.ty = some reached) (hlt : clone.ty < layouts.records.length) :
    ((frontierTypes layouts clone).map VerifiedType.id).Pairwise (· < ·)
      ∧ (∀ v, v ∈ (frontierTypes layouts clone).map VerifiedType.id ↔ Meets layouts clone.ty v) := by
  have hmem := (@gather_cloneFrontier layouts none (by simp) clone.ty hlt).2 reached h
  have hids : (frontierTypes layouts clone).map VerifiedType.id = reached.sort := by
    rw [frontierTypes, h, Option.getD_some, map_filterMap]
    refine (filterMap_congr fun v hv => ?_).trans filterMap_some
    have hv := ((hmem v).mp ((Finset.mem_sort _).mp hv)).lt hlt
    have hrecord : layouts.typeById v = some layouts.records[v] := getElem?_eq_getElem hv
    rw [hrecord, Option.map_some, layouts.isSealed.id_eq v _ hrecord]
  refine ⟨?_, fun v => ?_⟩
  · rw [hids]
    exact reached.sortedLT_sort.pairwise
  · rw [hids, Finset.mem_sort, hmem]

/-- What the classification for generic clones marks, in a program that uses them. -/
theorem getD_classifyGenericClone (program : Program) (t : ℕ) :
    (classifyGenericClone program layouts).getD t false = true
      ↔ program.instructions.any usesGenericClone = true ∧ typeNeedsDrop layouts t = true
        ∧ (reachableTypes layouts t).isSome = true := by
  unfold classifyGenericClone
  split
  · next hused =>
    rw [and_iff_right hused, getD_eq_getElem?_getD, getElem?_map]
    cases hrecord : layouts.records[t]? with
    | none => simp [typeNeedsDrop, layoutType, hrecord]
    | some record =>
      have hlt := (List.getElem?_eq_some_iff.mp hrecord).1
      have hid := layouts.isSealed.id_eq t record hrecord
      have hspread := @getD_classify layouts
        (fun record => isHandle record || unsizedContainer layouts record) t
      simp only [Option.map_some, Option.getD_some, Bool.and_eq_true, decide_eq_true_eq,
        Bool.not_eq_true', typeNeedsDrop, layoutType, hrecord, Option.any_some, hid]
      refine and_congr_right fun _ => ?_
      rw [isSome_reachableTypes hlt, ← Bool.not_eq_true, hspread]
      simp only [not_exists, not_and, Bool.or_eq_true, not_or, Bool.not_eq_true]
  · next hunused => simp [hunused]

theorem getD_classifyHandleAwareClone (program : Program) (t : ℕ) :
    (classifyHandleAwareClone program layouts).getD t false = true
      ↔ program.instructions.any usesHandleAwareClone = true
        ∧ (∃ v record, Meets layouts t v ∧ layouts.typeById v = some record
          ∧ isHandle record = true)
        ∧ (recipe layouts t).isSome = true := by
  unfold classifyHandleAwareClone
  split
  · next hused =>
    rw [and_iff_right hused, getD_eq_getElem?_getD, getElem?_map]
    cases hrecord : layouts.records[t]? with
    | none =>
      have hnone : layouts.typeById t = none := hrecord
      have hchildren : (cloneFrontier layouts (some [])).children t = none := by
        simp [cloneFrontier, hnone]
      have hrecipe : recipe layouts t = none := by
        rw [recipe, Frontier.gather_eq_none hchildren]
        rfl
      simp [hrecipe]
    | some record =>
      have hlt := (List.getElem?_eq_some_iff.mp hrecord).1
      have hid := layouts.isSealed.id_eq t record hrecord
      simp only [Option.map_some, Option.getD_some, Bool.and_eq_true, Bool.not_eq_true', hid]
      rw [getD_classify, (recipe_spec hlt).1, ← Bool.not_eq_true, getD_classify]
      simp only [not_exists, not_and, Bool.not_eq_true]
  · next hunused => simp [hunused]

/-- **The classification of recursive clones agrees with their recipes.** In a program that uses
them, generic clones are of the types that need dropping and whose walk down returns, which meets no
handle and no vector without storage; handle-aware clones are of the types that meet a handle and
have a recipe. A recipe lists what the type refers to, handles not entered, and so does the frontier
of every clone in an accepted program. -/
theorem cloneClasses_agree (program : Program) (layouts : VerifiedLayouts) :
    (∀ t, (classifyGenericClone program layouts).getD t false = true
      ↔ program.instructions.any usesGenericClone = true ∧ typeNeedsDrop layouts t = true
        ∧ (reachableTypes layouts t).isSome = true)
    ∧ (∀ t < layouts.records.length, (reachableTypes layouts t).isSome = true
      ↔ ∀ v record, Meets layouts t v → layouts.typeById v = some record →
        isHandle record = false ∧ unsizedContainer layouts record = false)
    ∧ (∀ t, (classifyHandleAwareClone program layouts).getD t false = true
      ↔ program.instructions.any usesHandleAwareClone = true
        ∧ (∃ v record, Meets layouts t v ∧ layouts.typeById v = some record
          ∧ isHandle record = true)
        ∧ (recipe layouts t).isSome = true)
    ∧ (∀ t < layouts.records.length, ∀ nodes, recipe layouts t = some nodes →
      RecipeLists layouts t nodes)
    ∧ ∀ sources expectedEntry linuxX8664 verified,
      verify program sources expectedEntry layouts linuxX8664 = .ok verified →
      ∀ module ∈ program.modules, ∀ function ∈ module.functions,
        ∀ instruction ∈ function.instructions, ∀ clone,
          (genericClone layouts function instruction = some clone →
            frontierTypes layouts clone ≠ []
            ∧ ((frontierTypes layouts clone).map VerifiedType.id).Pairwise (· < ·)
            ∧ ∀ v, v ∈ (frontierTypes layouts clone).map VerifiedType.id
              ↔ Meets layouts clone.ty v)
          ∧ (handleAwareClone layouts function instruction = some clone →
            frontierNodes layouts clone ≠ []
            ∧ RecipeLists layouts clone.ty (frontierNodes layouts clone)) := by
  refine ⟨getD_classifyGenericClone program, fun t => isSome_reachableTypes,
    getD_classifyHandleAwareClone program, fun t ht => (recipe_spec ht).2, ?_⟩
  intro sources expectedEntry linuxX8664 verified hverify module hmodule function hfunction
    instruction hinstruction clone
  obtain ⟨m, hm⟩ := mem_iff_getElem?.mp hmodule
  obtain ⟨i, hi⟩ := mem_iff_getElem?.mp hfunction
  obtain ⟨-, borrows, -, -, haccepted⟩ := accepted_of_verify hverify hm hi
  have hvalid := haccepted.graph.operationTypesValid hinstruction
  constructor
  · intro hclone
    obtain ⟨hmarked, hlt⟩ := (marked_of_recursiveClone hvalid).1 hclone
    obtain ⟨-, -, hsome⟩ := (getD_classifyGenericClone program clone.ty).mp hmarked
    obtain ⟨reached, hreached⟩ := Option.isSome_iff_exists.mp hsome
    obtain ⟨hordered, hmem⟩ := frontierTypes_spec hreached hlt
    refine ⟨fun hnil => ?_, hordered, hmem⟩
    have hroot := (hmem clone.ty).mpr .refl
    rw [hnil] at hroot
    cases hroot
  · intro hclone
    obtain ⟨hmarked, hlt⟩ := (marked_of_recursiveClone hvalid).2 hclone
    obtain ⟨-, -, hsome⟩ := (getD_classifyHandleAwareClone program clone.ty).mp hmarked
    obtain ⟨nodes, hnodes⟩ := Option.isSome_iff_exists.mp hsome
    have hlists := (recipe_spec hlt).2 nodes hnodes
    have hfrontier : frontierNodes layouts clone = nodes := by
      rw [frontierNodes, hnodes, Option.getD_some]
    rw [hfrontier]
    refine ⟨fun hnil => ?_, hlists⟩
    have hroot := (hlists.mem_iff clone.ty).mpr .refl
    rw [hnil] at hroot
    cases hroot

end Walks

/-! ### Programs without clones -/

/-- A program of one function with the given instruction, or of no module. -/
def programOf (kind : Option InstructionKind) : Program where
  authorities := ⟨.ownershipRuntimeV1, [], [], []⟩
  entryModule := 0
  modules := kind.toList.map fun kind =>
    let span : Span := ⟨⟨0, 0⟩, 0, 0⟩
    ⟨0, ⟨0, 0⟩, 0, [⟨⟨0, 0⟩, none, span, [], [], 0, [], [⟨0, [], [⟨none, span, kind⟩], []⟩], []⟩]⟩

/-- `String`, a shared string, and a struct that holds one next to a `Vec` of itself. -/
def treeUniverse : VerifiedLayouts where
  sourceMapIdentity := 0
  universeIdentity := []
  target := .linear32V1
  records := [⟨0, .string, 12, 2⟩, ⟨1, .shared 0, 4, 4⟩, ⟨2, .vec 3, 12, 3⟩,
    ⟨3, .struct 0 0 [⟨0, 1⟩, ⟨1, 2⟩], 16, 1⟩]
  fingerprint := []
  isSealed := sealed_of_ordered (by decide)

/-- The handle-aware clone is of the types on the cycle and of the handle. -/
example : classifyHandleAwareClone (programOf (some (.handleAwareClonePlace 0 0 0))) treeUniverse
    = [false, true, true, true] := by decide

/-- A program that uses no recursive clone has no classification, though a string could be cloned
and a shared string has a recipe. -/
theorem cloneClasses_unused :
    ((classifyGenericClone (programOf none) treeUniverse).getD 0 false = false
      ∧ typeNeedsDrop treeUniverse 0 = true ∧ (reachableTypes treeUniverse 0).isSome = true)
    ∧ ((classifyHandleAwareClone (programOf none) treeUniverse).getD 1 false = false
      ∧ (∃ v record, Meets treeUniverse 1 v ∧ treeUniverse.typeById v = some record
        ∧ isHandle record = true)
      ∧ (recipe treeUniverse 1).isSome = true) := by
  -- neither type refers to another
  have halone {t : ℕ} (ht : t < 2) {v : ℕ} (hv : Meets treeUniverse t v) : v = t := by
    induction hv with
    | refl => rfl
    | tail _ hstep ih =>
      rw [ih] at hstep
      obtain ⟨record, hrecord, hchild⟩ := hstep
      have hleaf : structuralChildren record = [] := by
        obtain rfl | rfl : t = 0 ∨ t = 1 := by omega
        all_goals
          cases hrecord
          rfl
      rw [hleaf] at hchild
      cases hchild
  refine ⟨⟨rfl, rfl, ?_⟩, rfl, ⟨1, _, .refl, rfl, rfl⟩, ?_⟩
  · refine (isSome_reachableTypes (by decide)).mpr fun v record hv hrecord => ?_
    obtain rfl := halone (by decide) hv
    cases hrecord
    exact ⟨rfl, rfl⟩
  · refine (recipe_spec (by decide)).1.mpr fun v record hv hrecord => ?_
    obtain rfl := halone (by decide) hv
    cases hrecord
    rfl

end Zryna.Ir.DataOwnership
