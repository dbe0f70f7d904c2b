import Zryna.Semantics.Instantiation.Interning
import Zryna.Semantics.Instantiation.Discovery
import Zryna.Semantics.Instantiation.Witnesses

/-!
# Expanding paths

`generatedEdge` refuses an edge whose target has another instance of its declaration above the
source. An edge may also complete a path that ends further down, below a target that was processed
before, and those are not looked for. `Run` is a run of the builder with every edge that it records,
and `Run.expanding_iff` says when two instances of one declaration end up on one path: when one of
the edges `Joins` them.
-/

namespace Zryna.Semantics.Instantiation

open Relation Checked SortedSlice List
open Except (ok.inj)

variable {bodies : BodyTypes} {b b' c : Builder} {s t u v : ℕ} {span : Option UntrustedSpan}

/-! ### The recorded relation -/

def Builder.Generates (b : Builder) (u v : ℕ) : Prop := (u, v) ∈ b.generated

/-- The shape of an interned type. -/
def Builder.shapeOf (b : Builder) (id : ℕ) : Option TypeShape := (b.types[id]?).map Node.shape

section

variable (bodies : BodyTypes) (b : Builder)

/-- Different closed instances of one generic nominal declaration. -/
def Siblings (u v : ℕ) : Prop :=
  u ≠ v ∧ ∃ owner, Builder.generic bodies (.nominal owner) = true
    ∧ b.shapeOf u = some (.nominal owner) ∧ b.shapeOf v = some (.nominal owner)

/-- A path of generated applications from one instance of a declaration to another. -/
def Expanding : Prop :=
  ∃ u v, Siblings bodies b u v ∧ ReflTransGen b.Generates u v

/-- The edge completes such a path, which ends behind the target. -/
def Joins (s t : ℕ) : Prop :=
  ∃ u v, Siblings bodies b u v ∧ v ≠ t ∧ ReflTransGen b.Generates u s ∧ ReflTransGen b.Generates t v

end

/-- The reverse lists hold the recorded edges. -/
structure Retained (b : Builder) : Prop where
  graph : Expansion.Graph (b.types.map Node.key) b.generatedReverse
  edges : ∀ u v, Expansion.Edge b.generatedReverse u v ↔ b.Generates u v

theorem Retained.edge_eq (h : Retained b) : Expansion.Edge b.generatedReverse = b.Generates := by
  ext u v
  exact h.edges u v

theorem Retained.lt (h : Retained b) (hedge : b.Generates u v) :
    u < b.types.length ∧ v < b.types.length := by
  have hlt := h.graph.lt ((h.edges u v).mpr hedge)
  rwa [length_map] at hlt

/-- An accepted edge has no other instance of the declaration of its target above its source. -/
theorem Retained.path_eq_none (h : Retained b) (hs : s < b.types.length)
    (hpath : Expansion.path bodies b s t = .ok none) (hsibling : Siblings bodies b u t) :
    ¬ReflTransGen b.Generates u s := by
  obtain ⟨hne, owner, hgeneric, hu, ht⟩ := hsibling
  obtain ⟨node, hnode, hshape⟩ := Option.map_eq_some_iff.mp ht
  have hlt : u < b.types.length := by
    obtain ⟨_, hnode, -⟩ := Option.map_eq_some_iff.mp hu
    exact (List.getElem?_eq_some_iff.mp hnode).1
  unfold Expansion.path at hpath
  rw [hnode] at hpath
  simp only [hshape, hgeneric, Bool.not_true, Bool.false_eq_true, if_false] at hpath
  rw [h.graph.canonicalPath_eq_none (by rwa [length_map]), h.edge_eq] at hpath
  exact hpath u (mem_filter.mpr ⟨mem_range.mpr hlt, decide_eq_true ⟨hne, hu⟩⟩)

/-- An edge more: a path uses it or does not. -/
theorem reflTransGen_insert {α : Type} {R : α → α → Prop} {x y u v : α} :
    ReflTransGen (fun a b => R a b ∨ a = x ∧ b = y) u v
      ↔ ReflTransGen R u v ∨ ReflTransGen R u x ∧ ReflTransGen R y v := by
  have hmono {a b : α} (h : ReflTransGen R a b) :
      ReflTransGen (fun a b => R a b ∨ a = x ∧ b = y) a b := h.lift id fun _ _ => .inl
  constructor
  · intro h
    induction h with
    | refl => exact .inl .refl
    | tail _ hedge ih =>
      obtain hedge | ⟨rfl, rfl⟩ := hedge
      · exact ih.imp (·.tail hedge) fun h => ⟨h.1, h.2.tail hedge⟩
      · exact .inr ⟨ih.elim id And.left, .refl⟩
  · rintro (h | ⟨h, h'⟩)
    · exact hmono h
    · exact ((hmono h).tail (.inr ⟨rfl, rfl⟩)).trans (hmono h')

/-- New types and a new processing state do not change which paths are expanding. -/
theorem Retained.expanding_congr (h : Retained b) (hgenerated : b'.generated = b.generated)
    (hshape : ∀ id < b.types.length, b'.shapeOf id = b.shapeOf id) :
    Expanding bodies b' ↔ Expanding bodies b := by
  have hgenerates : b'.Generates = b.Generates := by
    unfold Builder.Generates
    rw [hgenerated]
  rw [Expanding, Expanding, hgenerates]
  refine exists₂_congr fun u v => and_congr_left fun hpath => and_congr_right fun hne => ?_
  obtain heq | ⟨_, hfirst, -⟩ := hpath.cases_head
  · exact absurd heq hne
  obtain heq | ⟨_, -, hlast⟩ := hpath.cases_tail
  · exact absurd heq.symm hne
  rw [hshape u (h.lt hfirst).1, hshape v (h.lt hlast).2]

/-! ### Runs -/

/-- What the builder does to the relation in one step: nothing, a new type, or an edge. -/
inductive Step (bodies : BodyTypes) : Builder → Option (ℕ × ℕ) → Builder → Prop
  | keep {b b' : Builder} (hshapes : b'.types.map Node.shape = b.types.map Node.shape)
      (hgenerated : b'.generated = b.generated)
      (hreverse : b'.generatedReverse = b.generatedReverse) : Step bodies b none b'
  | intern {b b' : Builder} (node : Node) (htypes : b'.types = b.types ++ [node])
      (hgenerated : b'.generated = b.generated)
      (hreverse : b'.generatedReverse = b.generatedReverse ++ [[]]) : Step bodies b none b'
  | edge {b b' : Builder} {s t : ℕ} {span : Option UntrustedSpan} (hs : s < b.types.length)
      (ht : t < b.types.length) (h : b.generatedEdge bodies s t span = .ok b') :
      Step bodies b (some (s, t)) b'

/-- A run, with every edge that it records and the builder before it. -/
inductive Run (bodies : BodyTypes) (b : Builder) : List (Builder × ℕ × ℕ) → Builder → Prop
  | refl : Run bodies b [] b
  | tail {rows : List (Builder × ℕ × ℕ)} {b' c : Builder} {edge : Option (ℕ × ℕ)}
      (h : Run bodies b rows b') (hstep : Step bodies b' edge c) :
      Run bodies b (rows ++ (edge.map (b', ·)).toList) c

theorem Retained.of_eq (h : Retained b) (hlength : b'.types.length = b.types.length)
    (hgenerated : b'.generated = b.generated)
    (hreverse : b'.generatedReverse = b.generatedReverse) : Retained b' := by
  refine ⟨⟨?_, fun parents hparents u hu => ?_⟩, fun u v => ?_⟩
  · rw [hreverse, length_map, hlength, h.graph.length, length_map]
  · rw [length_map, hlength, ← length_map Node.key]
    exact h.graph.parents_lt parents (hreverse ▸ hparents) u hu
  · rw [hreverse, h.edges, Builder.Generates, Builder.Generates, hgenerated]

theorem Retained.intern {node : Node} (h : Retained b) (htypes : b'.types = b.types ++ [node])
    (hgenerated : b'.generated = b.generated)
    (hreverse : b'.generatedReverse = b.generatedReverse ++ [[]]) : Retained b' := by
  refine ⟨⟨?_, fun parents hparents u hu => ?_⟩, fun u v => ?_⟩
  · simp [hreverse, htypes, h.graph.length]
  · obtain hparents | hnil := mem_append.mp (hreverse ▸ hparents)
    · have hlt := h.graph.parents_lt parents hparents u hu
      simp only [htypes, map_append, length_append]
      exact Nat.lt_add_right _ hlt
    · exact absurd (mem_singleton.mp hnil ▸ hu) not_mem_nil
  · rw [show b'.Generates u v ↔ b.Generates u v by rw [Builder.Generates, hgenerated]; rfl,
      ← h.edges, Expansion.Edge, Expansion.Edge, hreverse]
    obtain hlt | hle := Nat.lt_or_ge v b.generatedReverse.length
    · rw [getD_append _ _ _ _ hlt]
    · rw [getD_append_right _ _ _ _ hle, getD_eq_default _ _ hle]
      cases v - b.generatedReverse.length <;> exact Iff.rfl

theorem generatedEdge_cases (hrun : b.generatedEdge bodies s t span = .ok b') :
    b.Generates s t ∧ b' = b ∨ Expansion.path bodies b s t = .ok none ∧ ∃ position, b' = { b with
      generated := insertAt position (s, t) b.generated
      generatedReverse := b.generatedReverse.modify t fun origins => origins ++ [s] } := by
  unfold Builder.generatedEdge at hrun
  split at hrun
  · next i hsearch =>
    obtain ⟨found, hfound, hkey⟩ := exists_of_search hsearch
    obtain rfl := toLex.injective hkey
    exact .inl ⟨mem_of_getElem? hfound, (ok.inj hrun).symm⟩
  · next position _ =>
    obtain ⟨path, hpath, hrun⟩ := bind_eq_ok.mp hrun
    cases path with
    | some path => cases hrun
    | none => exact .inr ⟨hpath, position, (ok.inj hrun).symm⟩

theorem Retained.edge (h : Retained b) (hs : s < b.types.length) (ht : t < b.types.length)
    (hrun : b.generatedEdge bodies s t span = .ok b') :
    Retained b' ∧ b'.types = b.types ∧ (∀ u v, b'.Generates u v ↔ b.Generates u v ∨ u = s ∧ v = t)
      ∧ (b.Generates s t ∨ Expansion.path bodies b s t = .ok none) := by
  obtain ⟨hmem, rfl⟩ | ⟨hpath, position, rfl⟩ := generatedEdge_cases hrun
  · refine ⟨h, rfl, fun u v => ⟨.inl, ?_⟩, .inl hmem⟩
    rintro (huv | ⟨rfl, rfl⟩)
    · exact huv
    · exact hmem
  · have hgenerates (u v : ℕ) : (u, v) ∈ insertAt position (s, t) b.generated
        ↔ b.Generates u v ∨ u = s ∧ v = t := by
      rw [mem_insertAt, Prod.mk.injEq, or_comm]
      rfl
    refine ⟨⟨⟨?_, fun parents hparents u hu => ?_⟩, fun u v => ?_⟩, rfl, hgenerates, .inr hpath⟩
    · rw [length_modify, h.graph.length]
    · obtain ⟨v, hv⟩ := mem_iff_getElem?.mp hparents
      rw [getElem?_modify] at hv
      obtain ⟨origins, horigins, rfl⟩ := Option.map_eq_some_iff.mp hv
      have hold := h.graph.parents_lt origins (mem_of_getElem? horigins)
      split at hu
      · obtain hu | hu := mem_append.mp hu
        · exact hold u hu
        · rw [mem_singleton.mp hu, length_map]
          exact hs
      · exact hold u hu
    · rw [Builder.Generates, hgenerates, ← h.edges, Expansion.Edge, Expansion.Edge,
        getD_eq_getElem?_getD, getD_eq_getElem?_getD, getElem?_modify]
      have hlt : t < b.generatedReverse.length := by
        rwa [h.graph.length, length_map]
      split
      · next heq =>
        subst heq
        rw [getElem?_eq_getElem hlt]
        simp
      · next hne =>
        rw [id_map']
        exact ⟨.inl, fun hedge => hedge.elim id fun heq => absurd heq.2.symm hne⟩

/-- Reachability and siblings after a step. -/
theorem Step.expanding_iff {edge : Option (ℕ × ℕ)} (hstep : Step bodies b edge b')
    (h : Retained b) : Retained b' ∧ (Expanding bodies b' ↔ Expanding bodies b
      ∨ ∃ row ∈ edge, Joins bodies b row.1 row.2) := by
  cases hstep with
  | keep hshapes hgenerated hreverse =>
    have hlength := congrArg List.length hshapes
    rw [length_map, length_map] at hlength
    refine ⟨h.of_eq hlength hgenerated hreverse, ?_⟩
    rw [h.expanding_congr hgenerated fun id _ => ?_]
    · simp
    · rw [Builder.shapeOf, Builder.shapeOf, ← getElem?_map, ← getElem?_map, hshapes]
  | intern node htypes hgenerated hreverse =>
    refine ⟨h.intern htypes hgenerated hreverse, ?_⟩
    rw [h.expanding_congr hgenerated fun id hid => ?_]
    · simp
    · rw [Builder.shapeOf, Builder.shapeOf, htypes, getElem?_append_left hid]
  | @edge _ s t _ hs ht hrun =>
    obtain ⟨hretained, htypes, hgenerates, hpath⟩ := h.edge hs ht hrun
    have hrelation : b'.Generates = fun u v => b.Generates u v ∨ u = s ∧ v = t := by
      ext u v
      exact hgenerates u v
    have hsiblings (u v : ℕ) : Siblings bodies b' u v ↔ Siblings bodies b u v := by
      rw [Siblings, Siblings, Builder.shapeOf, Builder.shapeOf, htypes]
      rfl
    refine ⟨hretained, ?_⟩
    simp only [Expanding, hsiblings, hrelation, reflTransGen_insert, Option.mem_some_iff,
      exists_eq_left']
    constructor
    · rintro ⟨u, v, hsibling, hold | ⟨hu, hv⟩⟩
      · exact .inl ⟨u, v, hsibling, hold⟩
      · obtain rfl | hne := eq_or_ne v t
        -- the end of the edge itself: the check has looked for `u`
        · obtain hedge | hnone := hpath
          · exact .inl ⟨u, v, hsibling, hu.tail hedge⟩
          · exact absurd hu (h.path_eq_none hs hnone hsibling)
        · exact .inr ⟨u, v, hsibling, hne, hu, hv⟩
    · rintro (⟨u, v, hsibling, hold⟩ | ⟨u, v, hsibling, -, hu, hv⟩)
      · exact ⟨u, v, hsibling, .inl hold⟩
      · exact ⟨u, v, hsibling, .inr ⟨hu, hv⟩⟩

namespace Run

variable {rows rows' : List (Builder × ℕ × ℕ)}

theorem trans (h : Run bodies b rows b') (h' : Run bodies b' rows' c) :
    Run bodies b (rows ++ rows') c := by
  induction h' with
  | refl => exact (append_nil rows).symm ▸ h
  | tail _ hstep ih => exact append_assoc rows _ _ ▸ ih.tail hstep

/-- **The condition**: the paths that a run adds are those that its edges join. -/
theorem expanding_iff (hrun : Run bodies b rows b') (h : Retained b) :
    Retained b' ∧ (Expanding bodies b' ↔ Expanding bodies b
      ∨ ∃ row ∈ rows, Joins bodies row.1 row.2.1 row.2.2) := by
  induction hrun with
  | refl => simp [h]
  | @tail rows b' c edge _ hstep ih =>
    obtain ⟨hretained, hiff⟩ := hstep.expanding_iff ih.1
    refine ⟨hretained, ?_⟩
    rw [hiff, ih.2, or_assoc]
    cases edge <;> simp [or_and_right, exists_or]

end Run

/-- Some run leads from one builder to the other. -/
def Grown (bodies : BodyTypes) (b b' : Builder) : Prop := ∃ rows, Run bodies b rows b'

namespace Grown

theorem refl (b : Builder) : Grown bodies b b := ⟨[], .refl⟩

theorem trans (h : Grown bodies b b') (h' : Grown bodies b' c) : Grown bodies b c := by
  obtain ⟨rows, h⟩ := h
  obtain ⟨rows', h'⟩ := h'
  exact ⟨rows ++ rows', h.trans h'⟩

theorem step {edge : Option (ℕ × ℕ)} (h : Step bodies b edge b') : Grown bodies b b' :=
  ⟨_, .tail .refl h⟩

theorem keep (htypes : b'.types.map Node.shape = b.types.map Node.shape)
    (hgenerated : b'.generated = b.generated)
    (hreverse : b'.generatedReverse = b.generatedReverse) :
    Grown bodies b b' := step (.keep htypes hgenerated hreverse)

theorem same (h : SameInventory b b') : Grown bodies b b' := by
  obtain ⟨uses, errors, rfl⟩ := h
  exact keep rfl rfl rfl

theorem length_le (h : Grown bodies b b') : b.types.length ≤ b'.types.length := by
  obtain ⟨rows, h⟩ := h
  induction h with
  | refl => exact le_rfl
  | tail _ hstep ih =>
    refine ih.trans ?_
    cases hstep with
    | keep hshapes _ _ =>
      have hlength := congrArg List.length hshapes
      rw [length_map, length_map] at hlength
      exact hlength.ge
    | intern node htypes _ _ => exact htypes ▸ (length_append ▸ Nat.le_add_right _ _)
    | edge _ _ h => obtain ⟨-, rfl⟩ | ⟨-, _, rfl⟩ := generatedEdge_cases h <;> exact le_rfl

/-- A loop grows the builder when each of its rounds does, `id` staying a type. -/
theorem foldlM {α σ : Type} {f : σ → α → Except InstantiationFailure σ} {xs : List α} {x x' : σ}
    (builder : σ → Builder)
    (hstep : ∀ s a s', f s a = .ok s' → (builder x).types.length ≤ (builder s).types.length →
      Grown bodies (builder s) (builder s'))
    (h : xs.foldlM f x = .ok x') : Grown bodies (builder x) (builder x') := by
  refine foldlM_invariant (I := fun s => Grown bodies (builder x) (builder s))
    (fun s a s' hround hs => ?_) h (refl _)
  exact hs.trans (hstep s a s' hround hs.length_le)

variable {id : ℕ} {key : List UInt8} {environment : Environment} {occurrence : UInt32}
  {result : Option ℕ} {origin : Option ℕ} {owner : DeclarationIdentity}

theorem intern {node : Node} (h : b.intern bodies node span = .ok (b', id)) :
    Grown bodies b b' := by
  unfold Builder.intern at h
  split at h
  · split at h
    · exact (Prod.mk.inj (ok.inj h)).1 ▸ refl b
    · cases h
  · rw [ite_error_eq_ok, ite_error_eq_ok] at h
    obtain ⟨-, -, h⟩ := h
    obtain ⟨rfl, -⟩ := Prod.mk.inj (ok.inj h)
    exact step (.intern node rfl rfl rfl)

theorem function {arguments : List ℕ} (h : b.function owner arguments span = .ok (b', id)) :
    Grown bodies b b' := by
  unfold Builder.function at h
  rw [ite_error_eq_ok] at h
  obtain ⟨-, h⟩ := h
  split at h
  · split at h
    · exact (Prod.mk.inj (ok.inj h)).1 ▸ refl b
    · cases h
  · rw [ite_error_eq_ok] at h
    obtain ⟨rfl, -⟩ := Prod.mk.inj (ok.inj h.2)
    exact keep rfl rfl rfl

theorem edge {target : List UInt8} (h : b.edge key target span = .ok b') : Grown bodies b b' := by
  unfold Builder.edge at h
  split at h
  · exact ok.inj h ▸ refl b
  · rw [ite_error_eq_ok] at h
    exact ok.inj h.2 ▸ keep rfl rfl rfl

theorem internShape {shape : TypeShape} {arguments : List ℕ} {spans : List (Option UntrustedSpan)}
    (h : b.internShape bodies shape arguments spans span = .ok (b', id)) : Grown bodies b b' := by
  unfold Builder.internShape at h
  rw [ite_error_eq_ok] at h
  simp only [bind_eq_ok, ite_error_eq_ok, Prod.exists] at h
  obtain ⟨-, _, _, -, -, _, -, h⟩ := h
  split at h
  · exact (same (sameInventory_noteArguments arguments spans span)).trans (intern h)
  · exact intern h

theorem dependencyOn (h : Builder.dependencyOn bodies key span id b = .ok b') :
    Grown bodies b b' := by
  induction id using Nat.strongRecOn generalizing b b' with
  | _ id ih =>
  rw [Builder.dependencyOn] at h
  split at h
  · cases h
  · next node _ =>
    have harguments {first : Builder} (h : node.arguments.reverse.foldlM (fun builder argument =>
        if argument < id then Builder.dependencyOn bodies key span argument builder
        else .error .internalFailure) first = .ok b') : Grown bodies first b' := by
      refine foldlM (fun b => b) (fun s argument s' hround _ => ?_) h
      split at hround
      · next hlt => exact ih argument hlt hround
      · cases hround
    split at h
    · obtain ⟨first, hfirst, h⟩ := bind_eq_ok.mp h
      exact (edge hfirst).trans (harguments h)
    · exact harguments h

theorem dependency (h : b.dependency bodies key id span = .ok b') : Grown bodies b b' := by
  unfold Builder.dependency at h
  split at h
  · exact ok.inj h ▸ refl b
  · exact dependencyOn h

section

variable (horigin : ∀ i ∈ origin, i < b.types.length)

include horigin

theorem recordUse {shape : TypeShape}
    (h : b.recordUse bodies key origin shape id span = .ok b') : Grown bodies b b' := by
  unfold Builder.recordUse at h
  obtain ⟨next, hnext, h⟩ := bind_eq_ok.mp h
  have hgrown := dependency hnext
  refine hgrown.trans ?_
  split at h
  · exact ok.inj h ▸ refl next
  · exact ok.inj h ▸ refl next
  · next i _ _ =>
    split at h
    · next hgeneric =>
      refine step (.edge ((horigin i rfl).trans_le hgrown.length_le) (not_le.mp fun hle => ?_) h)
      rw [getElem?_eq_none hle] at hgeneric
      cases hgeneric
    · exact ok.inj h ▸ refl next

theorem close {view : TypeView}
    (h : Builder.close bodies environment key origin span view b = .ok (b', result)) :
    Grown bodies b b' := by
  induction view generalizing b b' result with
  | node shape _ headSpan count children ih =>
  simp only [Builder.close, bind_eq_ok, Prod.exists] at h
  obtain ⟨first, results, hfold, second, closed, hshape, h⟩ := h
  have hfirst : Grown bodies b first := by
    refine foldlM Prod.fst (fun s i s' hround hle => ?_) hfold
    simp only [bind_eq_ok, Prod.exists, Except.ok.injEq] at hround
    obtain ⟨next, result, hround, rfl⟩ := hround
    exact ih i (fun i hi => (horigin i hi).trans_le hle) hround
  have hsecond : Grown bodies first second := by
    unfold Builder.closeShape at hshape
    split at hshape
    case h_6 =>
      split at hshape
      · exact (Prod.mk.inj (ok.inj hshape)).1 ▸ refl first
      · obtain ⟨⟨next, id⟩, hintern, hshape⟩ := bind_eq_ok.mp hshape
        exact (Prod.mk.inj (ok.inj hshape)).1 ▸ internShape hintern
    all_goals exact (Prod.mk.inj (ok.inj hshape)).1 ▸ refl first
  refine hfirst.trans (hsecond.trans ?_)
  cases closed with
  | none => exact (Prod.mk.inj (ok.inj h)).1 ▸ refl second
  | some id =>
    obtain ⟨next, hnext, h⟩ := bind_eq_ok.mp h
    obtain ⟨rfl, -⟩ := Prod.mk.inj (ok.inj h)
    exact recordUse (fun i hi => (horigin i hi).trans_le (hfirst.trans hsecond).length_le) hnext

theorem source (h : b.source bodies environment occurrence key origin = .ok (b', result)) :
    Grown bodies b b' := by
  unfold Builder.source at h
  split at h
  · exact (Prod.mk.inj (ok.inj h)).1 ▸ refl b
  · exact close horigin h

end

theorem roots (h : b.roots bodies = .ok b') : Grown bodies b b' := by
  refine foldlM (fun b => b) (fun s row s' hmodule _ => ?_) h
  refine foldlM (fun b => b) (fun s declaration s' hdeclaration _ => ?_) hmodule
  unfold Builder.rootDeclaration at hdeclaration
  have hoccurrences {first : Builder}
      (h : (occurrencesOf row.1 declaration.2).foldlM (fun builder occurrence =>
        builder.rootOccurrence bodies declaration.2 occurrence) first = .ok s') :
      Grown bodies first s' := by
    refine foldlM (fun b => b) (fun s occurrence s' hround _ => ?_) h
    obtain ⟨⟨next, type⟩, hsource, hround⟩ := bind_eq_ok.mp hround
    refine (source (by simp) hsource).trans ?_
    dsimp only at hround
    split at hround
    · split at hround
      · exact ok.inj hround ▸ same (sameInventory_argumentUse _ _)
      · exact ok.inj hround ▸ refl next
    · exact ok.inj hround ▸ refl next
  split at hdeclaration
  · split at hdeclaration
    · obtain ⟨⟨next, id⟩, hfunction, hdeclaration⟩ := bind_eq_ok.mp hdeclaration
      exact (function hfunction).trans (hoccurrences hdeclaration)
    all_goals
      obtain ⟨⟨next, id⟩, hnominal, hdeclaration⟩ := bind_eq_ok.mp hdeclaration
      exact (internShape hnominal).trans (hoccurrences hdeclaration)
  · exact hoccurrences hdeclaration

theorem modifyType {f : Node → Node} (hf : ∀ node, (f node).shape = node.shape) :
    Grown bodies b (b.modifyType id f) := by
  refine keep (ext_getElem? fun i => ?_) rfl rfl
  simp only [Builder.modifyType, getElem?_map, getElem?_modify]
  cases b.types[i]? with
  | none => rfl
  | some node => split <;> simp [hf]

theorem processType (h : b.processType bodies id = .ok b') : Grown bodies b b' := by
  unfold Builder.processType at h
  split at h
  · cases h
  · next node hnode =>
    have hid : id < b.types.length := (List.getElem?_eq_some_iff.mp hnode).1
    have hfirst : Grown bodies b
        (b.modifyType id fun node => { node with processed := true }) := modifyType fun _ => rfl
    refine hfirst.trans ?_
    dsimp only at h
    split at h
    case h_3 owner _ =>
      split at h
      · cases h
      · refine foldlM (fun b => b) (fun s occurrence s' hround hle => ?_) h
        obtain ⟨⟨next, type⟩, hsource, hround⟩ := bind_eq_ok.mp hround
        have hlt := hid.trans_le (hfirst.length_le.trans hle)
        refine (source (fun i hi => Option.some.inj hi ▸ hlt) hsource).trans ?_
        dsimp only at hround
        split at hround <;> exact ok.inj hround ▸ modifyType fun _ => rfl
    case h_4 => exact ok.inj h ▸ refl _
    all_goals
      refine foldlM (fun b => b) (fun s argument s' hround _ => ?_) h
      exact dependency hround

theorem call {row : Call} (h : b.call bodies environment key row = .ok b') : Grown bodies b b' := by
  unfold Builder.call at h
  split at h
  · cases h
  · obtain ⟨⟨first, arguments⟩, harguments, h⟩ := bind_eq_ok.mp h
    obtain ⟨⟨second, id⟩, hfunction, h⟩ := bind_eq_ok.mp h
    have hfirst : Grown bodies b first := by
      refine foldlM Prod.fst (fun s occurrence s' hround _ => ?_) harguments
      obtain ⟨⟨next, argument⟩, hsource, hround⟩ := bind_eq_ok.mp hround
      dsimp only at hround
      split at hround
      · cases hround
      · exact ok.inj hround ▸ (source (by simp) hsource).trans
          (same (sameInventory_argumentUse _ _))
    refine hfirst.trans ((function hfunction).trans ?_)
    dsimp only at h
    split at h
    · exact edge h
    · exact ok.inj h ▸ refl second

theorem calls {expression : Expression} (h : (match expression.call with
      | some row => if expression.intrinsic then .ok b else b.call bodies environment key row
      | none => .ok b) = Except.ok b') : Grown bodies b b' := by
  split at h
  · split at h
    · exact ok.inj h ▸ refl b
    · exact call h
  · exact ok.inj h ▸ refl b

theorem processExpression {expression : Expression}
    (h : b.processExpression bodies environment key expression = .ok b') : Grown bodies b b' := by
  unfold Builder.processExpression at h
  dsimp only at h
  split at h
  · obtain ⟨⟨next, type⟩, hclose, h⟩ := bind_eq_ok.mp h
    exact (close (by simp) hclose).trans (calls h)
  · exact calls h

theorem processFunction (h : b.processFunction bodies id = .ok b') : Grown bodies b b' := by
  unfold Builder.processFunction at h
  split at h
  · cases h
  · dsimp only at h
    split at h
    · cases h
    · obtain ⟨next, hwritten, h⟩ := bind_eq_ok.mp h
      have hprocessed : Grown bodies b
          (b.modifyFunction id fun function => { function with processed := true }) :=
        keep rfl rfl rfl
      refine (hprocessed.trans ?_).trans
        (foldlM (fun b => b) (fun s expression s' hround _ => processExpression hround) h)
      refine foldlM (fun b => b) (fun s occurrence s' hround _ => ?_) hwritten
      obtain ⟨⟨next, type⟩, hsource, hround⟩ := bind_eq_ok.mp hround
      exact ok.inj hround ▸ source (by simp) hsource

theorem pending {rounds : ℕ} (h : Builder.pending bodies rounds b = .done b') :
    Grown bodies b b' := by
  induction rounds generalizing b with
  | zero => cases h
  | succ rounds ih =>
    rw [Builder.pending] at h
    split at h
    · exact Outcome.done.inj h ▸ refl b
    · next job hjob =>
      split at h
      · cases h
      · next next hprocess =>
        refine .trans ?_ (ih h)
        cases job with
        | function id => exact processFunction hprocess
        | type id => exact processType hprocess

theorem new (h : Builder.new bodies = .ok b) : Retained b ∧ ¬Expanding bodies b := by
  obtain ⟨bounds, -, rfl⟩ := new_eq_ok.mp h
  have hnone (u v : ℕ) : ¬(Builder.scalars bounds).Generates u v := not_mem_nil
  refine ⟨⟨⟨rfl, by simp [Builder.scalars]⟩, fun u v => ?_⟩, ?_⟩
  · refine iff_of_false (fun hedge => ?_) (hnone u v)
    obtain _ | _ | _ | v := v <;> exact not_mem_nil hedge
  · rintro ⟨u, v, ⟨hne, -⟩, hpath⟩
    obtain heq | ⟨w, hedge, -⟩ := hpath.cases_head
    · exact hne heq
    · exact hnone u w hedge

end Grown

/-- `E<T>` has a `Vec<D<bool>>`, `D<T>` a `T` and a `Vec<E<i32>>`, and `make<T>`, which `read` calls
with `i32`, a local `D<T>`. -/
def CheckedProgram.crossed : CheckedProgram where
  modules :=
    let e : DeclarationIdentity := ⟨0, .struct, 0⟩
    let d : DeclarationIdentity := ⟨0, .struct, 1⟩
    let make : DeclarationIdentity := ⟨0, .function, 0⟩
    let read : DeclarationIdentity := ⟨0, .function, 1⟩
    let leaf (shape : TypeShape) : TypeView := .node shape none none 0 Fin.elim0
    let of (shape : TypeShape) (child : TypeView) : TypeView :=
      .node shape none none 1 fun _ => child
    let written := [(e, leaf .bool), (e, of (.nominal d) (leaf .bool)),
      (e, of .vec (of (.nominal d) (leaf .bool))), (d, leaf (.parameter ⟨d, 0⟩)), (d, leaf .i32),
      (d, of (.nominal e) (leaf .i32)), (d, of .vec (of (.nominal e) (leaf .i32))),
      (make, leaf (.parameter ⟨make, 0⟩)), (make, leaf .i32), (make, leaf (.parameter ⟨make, 0⟩)),
      (make, of (.nominal d) (leaf (.parameter ⟨make, 0⟩))), (read, leaf .i32), (read, leaf .i32)]
    [{ dataDeclarations := [⟨"E", 1, .struct [2]⟩, ⟨"D", 1, .struct [3, 6]⟩]
       functions := [⟨"make", 1, [7], 8, [.localDeclaration 10], []⟩, ⟨"read", 0, [], 11, [],
         [⟨⟨0, 0, 0⟩, some (leaf .i32), some ⟨"make", ⟨0, 0, 0⟩, some [12]⟩, false⟩]⟩]
       imports := []
       sources := written.map fun row => ⟨row.1, some row.2, ⟨0, 0, 0⟩, false⟩ }]
  modules_lt := by decide
  data_lt := by decide
  functions_lt := by decide
  sources_lt := by decide
  typeParameters_le := BodyTypes.le_of_typeParameters? (by decide) (by decide)
  sources_checked := by
    simp [BodyTypes.ViewChecked, BodyTypes.arity, BodyTypes.data?, BodyTypes.module?,
      DataKind.declarationKind]
  expressions_checked := by simp [BodyTypes.ViewChecked, BodyTypes.arity]
  owners_declared := by
    intro index module hmodule
    obtain rfl | hindex := index.eq_zero_or_pos
    · cases hmodule
      simp [BodyTypes.Declared, BodyTypes.typeParameters?, BodyTypes.function?, BodyTypes.data?,
        BodyTypes.module?, DataKind.declarationKind]
    · rw [getElem?_eq_none hindex] at hmodule
      cases hmodule
  data_sources := by
    intro module hmodule record hrecord data view hdata hview
    obtain rfl := mem_singleton.mp hmodule
    obtain ⟨row, hrow, rfl⟩ := mem_map.mp hrecord
    cases hview
    have hkind := Option.isSome_of_mem hdata
    simp only [mem_cons, not_mem_nil, or_false] at hrow
    obtain rfl | rfl | rfl | rfl | rfl | rfl | rfl | hrow := hrow
    case inr.inr.inr.inr.inr.inr.inr =>
      obtain rfl | rfl | rfl | rfl | rfl | rfl := hrow <;> cases hkind
    all_goals obtain rfl := Option.some.inj hdata
    · exact ⟨2, .head _, _, rfl, .child 0 (.child 0 (.self _))⟩
    · exact ⟨2, .head _, _, rfl, .child 0 (.self _)⟩
    · exact ⟨2, .head _, _, rfl, .self _⟩
    · exact ⟨3, .head _, _, rfl, .self _⟩
    · exact ⟨6, .tail _ (.head _), _, rfl, .child 0 (.child 0 (.self _))⟩
    · exact ⟨6, .tail _ (.head _), _, rfl, .child 0 (.self _)⟩
    · exact ⟨6, .tail _ (.head _), _, rfl, .self _⟩
  calls_checked := by
    intro owner function hfunction expression hexpression call hcall _ target htarget
    simp only [BodyTypes.function?, BodyTypes.module?, Option.bind_eq_bind,
      Option.bind_eq_some_iff] at hfunction
    obtain ⟨module, hmodule, hfunction⟩ := hfunction
    have hzero : owner.module.toNat = 0 :=
      Nat.lt_one_iff.mp (List.getElem?_eq_some_iff.mp hmodule).1
    rw [hzero] at hmodule
    cases hmodule
    split at hfunction
    · obtain rfl | rfl := mem_pair.mp (mem_of_getElem? hfunction)
      · cases hexpression
      · obtain rfl := mem_singleton.mp hexpression
        cases hcall
        rw [BodyTypes.target, BodyTypes.module?, hzero] at htarget
        cases htarget
        exact ⟨rfl, rfl⟩
    · cases hfunction

theorem discover_crossed : ∃ new found final,
    Builder.new CheckedProgram.crossed.toBodyTypes = .ok new
      ∧ new.roots CheckedProgram.crossed.toBodyTypes = .ok found
      ∧ Builder.pending CheckedProgram.crossed.toBodyTypes 9 found = .done final
      ∧ Expanding CheckedProgram.crossed.toBodyTypes final := by
  have hrun : ((Builder.new CheckedProgram.crossed.toBodyTypes).bind fun new =>
      (new.roots CheckedProgram.crossed.toBodyTypes).bind fun found =>
        .ok (Builder.pending CheckedProgram.crossed.toBodyTypes 9 found >>= fun final =>
          .done (final.generated, final.types.map Node.shape)))
      = .ok (.done ([(3, 5), (5, 3), (7, 5)], [.bool, .i32, .string, .nominal ⟨0, .struct, 1⟩, .vec,
          .nominal ⟨0, .struct, 0⟩, .vec, .nominal ⟨0, .struct, 1⟩])) := by decide +kernel
  obtain ⟨new, hnew, hrun⟩ := bind_eq_ok.mp hrun
  obtain ⟨found, hfound, hrun⟩ := bind_eq_ok.mp hrun
  obtain ⟨final, hfinal, hrun⟩ := Outcome.bind_eq_done.mp (ok.inj hrun)
  obtain ⟨hgenerated, hshapes⟩ := Prod.mk.inj (Outcome.done.inj hrun)
  have hshape (id : ℕ) := getElem?_map (f := Node.shape) (l := final.types) (i := id)
  have hedge (edge : ℕ × ℕ) (h : edge ∈ [(3, 5), (5, 3), (7, 5)]) :
      final.Generates edge.1 edge.2 := by rwa [← hgenerated] at h
  rw [hshapes] at hshape
  -- `D<i32>` generates `E<i32>`, which had generated `D<bool>` before
  have hpath : ReflTransGen final.Generates 7 3 :=
    .head (hedge (7, 5) (by decide)) (.single (hedge (5, 3) (by decide)))
  exact ⟨new, found, final, hnew, hfound, hfinal, 7, 3, ⟨by decide, ⟨0, .struct, 1⟩, by decide,
    (hshape 7).symm, (hshape 3).symm⟩, hpath⟩

end Zryna.Semantics.Instantiation
