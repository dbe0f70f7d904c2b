import Zryna.Semantics.Instantiation.Calls
import Zryna.Semantics.Instantiation.Values

/-!
# Roots

The declarations of a module are those that it declares, and the occurrences of a declaration the
types that are written in it, so the roots of a project are interned.
-/

namespace Zryna.Semantics.Instantiation

open Zryna.Ir.Generic Relation List

variable {program : CheckedProgram} {bodies : BodyTypes} {builder builder' : Builder}

/-! ### Declarations and occurrences -/

variable {k : ℕ} {module : Module} {owner : DeclarationIdentity}

section

variable (hmodule : program.modules[k]? = some module)

include hmodule

theorem CheckedProgram.toNat_index : (UInt32.ofNat k).toNat = k :=
  UInt32.toNat_ofNat_of_lt'
    (lt_trans (List.getElem?_eq_some_iff.mp hmodule).1 program.modules_lt)

/-- The declarations of a module are those that are declared with its index. -/
theorem mem_declarations (owner : DeclarationIdentity) :
    (∃ declaration ∈ BodyTypes.declarations k module, declaration.2 = owner)
      ↔ owner.module = .ofNat k ∧ program.Declared owner := by
  have hk := program.toNat_index hmodule
  have hmem := mem_of_getElem? hmodule
  simp only [BodyTypes.declarations, mem_append, mem_mapIdx]
  constructor
  · rintro ⟨_, ⟨i, hi, rfl⟩ | ⟨i, hi, rfl⟩, rfl⟩
    · have hi' : (UInt32.ofNat i).toNat = i :=
        UInt32.toNat_ofNat_of_lt' (lt_trans hi (program.data_lt module hmem))
      have hdata : program.data? (dataIdentity k i module.dataDeclarations[i])
          = some module.dataDeclarations[i] := by
        simp [BodyTypes.data?, BodyTypes.module?, dataIdentity, hk, hi', hmodule,
          getElem?_eq_getElem hi]
      refine ⟨rfl, ?_⟩
      rw [BodyTypes.Declared, BodyTypes.typeParameters?]
      cases hkind : (dataIdentity k i module.dataDeclarations[i]).kind with
      | function => exact absurd hkind (DataKind.declarationKind_ne_function _)
      | struct | enum =>
        rw [hdata]
        rfl
    · have hi' : (UInt32.ofNat i).toNat = i :=
        UInt32.toNat_ofNat_of_lt' (lt_trans hi (program.functions_lt module hmem))
      refine ⟨rfl, ?_⟩
      simp [BodyTypes.Declared, BodyTypes.typeParameters?, BodyTypes.function?, BodyTypes.module?,
        functionIdentity, hk, hi', hmodule, getElem?_eq_getElem hi]
  · rintro ⟨hindex, hdeclared⟩
    obtain ⟨m, kind, index⟩ := owner
    obtain rfl : m = UInt32.ofNat k := hindex
    simp only [BodyTypes.Declared, BodyTypes.typeParameters?] at hdeclared
    have hdata : ∀ data, program.data? ⟨UInt32.ofNat k, kind, index⟩ = some data →
        ∃ (i : ℕ) (hi : i < module.dataDeclarations.length),
          dataIdentity k i module.dataDeclarations[i] = ⟨UInt32.ofNat k, kind, index⟩ := by
      intro data hdata
      have hkind := BodyTypes.kind_of_data? hdata
      simp only [BodyTypes.data?, BodyTypes.module?, hk, hmodule, Option.bind_eq_bind,
        Option.bind_some, Option.bind_eq_some_iff] at hdata
      obtain ⟨found, hfound, hdata⟩ := hdata
      split at hdata
      · cases hdata
        obtain ⟨hi, rfl⟩ := List.getElem?_eq_some_iff.mp hfound
        exact ⟨index.toNat, hi, by rw [dataIdentity, hkind, UInt32.ofNat_toNat]⟩
      · cases hdata
    cases kind with
    | struct | enum =>
      obtain ⟨count, hcount⟩ := Option.isSome_iff_exists.mp hdeclared
      obtain ⟨data, hdata', -⟩ := Option.map_eq_some_iff.mp hcount
      obtain ⟨i, hi, hidentity⟩ := hdata data hdata'
      exact ⟨_, .inl ⟨i, hi, rfl⟩, hidentity⟩
    | function =>
      obtain ⟨count, hcount⟩ := Option.isSome_iff_exists.mp hdeclared
      obtain ⟨function, hfunction, -⟩ := Option.map_eq_some_iff.mp hcount
      simp only [BodyTypes.function?, BodyTypes.module?, hk, hmodule, Option.bind_eq_bind,
        Option.bind_some, if_true] at hfunction
      obtain ⟨hi, rfl⟩ := List.getElem?_eq_some_iff.mp hfunction
      exact ⟨_, .inr ⟨index.toNat, hi, rfl⟩, by rw [functionIdentity, UInt32.ofNat_toNat]⟩

/-- The occurrences of a declaration are those of the types that are written in it. -/
theorem mem_occurrencesOf (howner : owner.module = .ofNat k) (occurrence : UInt32) :
    occurrence ∈ occurrencesOf module owner
      ↔ ∃ view, program.sourceType owner occurrence = some view := by
  have hk := program.toNat_index hmodule
  simp only [occurrencesOf, mem_insertionSort, mem_map, mem_filter,
    BodyTypes.sourceOwners, mem_filterMap, mem_mapIdx, decide_eq_true_eq]
  have hsource : ∀ view, program.sourceType owner occurrence = some view ↔
      ∃ record, module.sources[occurrence.toNat]? = some record ∧ record.owner = owner
        ∧ record.view = some view := by
    intro view
    simp only [BodyTypes.sourceType, BodyTypes.record?, BodyTypes.module?, howner, hk, hmodule,
      Option.bind_eq_bind, Option.bind_some, Option.bind_eq_some_iff, Option.ite_none_right_eq_some]
  simp only [hsource]
  constructor
  · rintro ⟨row, ⟨⟨_, ⟨i, hi, rfl⟩, hrow⟩, hrowner⟩, hoccurrence⟩
    split at hrow
    · next hview =>
      cases hrow
      obtain ⟨view, hview⟩ := Option.isSome_iff_exists.mp hview
      have hi' : (UInt32.ofNat i).toNat = i := UInt32.toNat_ofNat_of_lt'
        (lt_trans hi (program.sources_lt module (mem_of_getElem? hmodule)))
      refine ⟨view, module.sources[i], ?_, hrowner, hview⟩
      rw [← hoccurrence, hi', getElem?_eq_getElem hi]
    · cases hrow
  · rintro ⟨view, record, hrecord, rfl, hview⟩
    obtain ⟨hi, rfl⟩ := List.getElem?_eq_some_iff.mp hrecord
    refine ⟨(_, occurrence), ⟨⟨_, ⟨occurrence.toNat, hi, rfl⟩, ?_⟩, rfl⟩, rfl⟩
    rw [if_pos (by rw [hview]; rfl), UInt32.ofNat_toNat]

end

/-! ### Roots -/

/-- A type without arguments is determined by its declaration. -/
theorem nominal_unique {t u : ClosedType}
    (ht : ownerOf t = some owner) (hu : ownerOf u = some owner) (hargs : t.arguments = [])
    (hargs' : u.arguments = []) : t = u := by
  have hcount : ∀ v : ClosedType, v.arguments = [] → v.constructor.count.toNat = 0 := fun v hv => by
    rw [← v.length_arguments, hv]
    rfl
  have hconstructor : ∀ v : ClosedType, v.arguments = [] → ownerOf v = some owner →
      v.constructor = if owner.kind = .struct then .struct owner.lanes else .enum owner.lanes := by
    intro v hv howner
    have hzero := hcount v hv
    rw [ownerOf] at howner
    cases hc : v.constructor with
    | struct d | enum d =>
      rw [hc] at howner
      cases howner
      rfl
    | genericStruct d a | genericEnum d a =>
      rw [hc] at hzero
      cases a <;> simp [TypeConstructor.count, Arity.lane] at hzero
    | _ =>
      rw [hc] at howner
      cases howner
  exact ClosedType.ext_arguments ((hconstructor t hargs ht).trans (hconstructor u hargs' hu).symm)
    (hargs.trans hargs'.symm)

theorem kind_of_ownerOf {t : ClosedType} (h : ownerOf t = some owner) : owner.kind ≠ .function := by
  rw [ownerOf] at h
  cases hc : t.constructor with
  | struct _ | genericStruct _ _ | enum _ | genericEnum _ _ =>
    rw [hc] at h
    rw [← Option.some.inj h]
    exact DeclarationKind.noConfusion
  | _ =>
    rw [hc] at h
    cases h

/-- What a declaration contributes to the roots. -/
def RootOf (bodies : BodyTypes) (owner : DeclarationIdentity) (i : Instance) : Prop :=
  (bodies.typeParameters? owner = some 0
    ∧ ((owner.kind = .function ∧ i = .function owner [])
      ∨ ∃ t : ClosedType, i = .type t ∧ ownerOf t = some owner ∧ t.arguments = []))
  ∨ ∃ occurrence, OccurrenceGains bodies owner [] occurrence i

theorem rootOccurrence_spec {occurrence : UInt32} (hsound : Sound program builder)
    (h : builder.rootOccurrence program.toBodyTypes owner occurrence = .ok builder') :
    Extends program noJob (OccurrenceGains program.toBodyTypes owner [] occurrence)
      (fun _ => False) builder builder' := by
  obtain ⟨⟨next, result⟩, hsource, h⟩ := Checked.bind_eq_ok.mp h
  obtain ⟨-, hextends⟩ := source_spec hsound .nil hsource
  have hclean : Extends program noJob (OccurrenceGains program.toBodyTypes owner [] occurrence)
      (fun _ => False) builder next := by
    refine hextends.congr (fun _ => Iff.rfl) fun e => iff_of_false ?_ (fun h => h)
    rintro ⟨_, _, _, _, hne, _⟩
    exact hne rfl
  cases result with
  | none => exact Except.ok.inj h ▸ hclean
  | some id =>
    dsimp only at h
    split at h
    · cases h
      have huse := (@sameInventory_argumentUse next id
        ((program.record? owner occurrence).map SourceRecord.span)).extends hclean.sound
      exact (hclean.trans no_focus huse).congr (by simp) (by simp)
    · exact Except.ok.inj h ▸ hclean

theorem shape_not_open (owner : DeclarationIdentity) : ¬ (TypeShape.nominal owner).Open :=
  fun h => h

theorem rootDeclaration_spec (hsound : Sound program builder)
    (hmodule : program.modules[k]? = some module) (howner : owner.module = .ofNat k)
    (h : builder.rootDeclaration program.toBodyTypes module owner = .ok builder') :
    Extends program noJob (RootOf program.toBodyTypes owner) (fun _ => False) builder builder' := by
  obtain ⟨next, hfirst, h⟩ : ∃ next, Extends program noJob (fun i =>
        program.typeParameters? owner = some 0 ∧ ((owner.kind = .function ∧ i = .function owner [])
          ∨ ∃ t : ClosedType, i = .type t ∧ ownerOf t = some owner ∧ t.arguments = []))
        (fun _ => False) builder next
      ∧ (occurrencesOf module owner).foldlM (fun builder occurrence =>
        builder.rootOccurrence program.toBodyTypes owner occurrence) next = .ok builder' := by
    unfold Builder.rootDeclaration at h
    split at h
    · next hzero =>
      cases hkind : owner.kind with
      | function =>
        rw [hkind] at h
        simp only [Checked.bind_eq_ok, Prod.exists] at h
        obtain ⟨next, id, hfunction, _, heq, h⟩ := h
        cases heq
        obtain ⟨-, hextends⟩ := function_extends hsound .nil hkind hzero hfunction
        refine ⟨_, hextends.congr (fun i => ⟨fun hi => ⟨hzero, .inl ⟨rfl, hi⟩⟩, ?_⟩)
          (fun _ => Iff.rfl), h⟩
        rintro ⟨-, ⟨-, hi⟩ | ⟨t, -, htype, -⟩⟩
        · exact hi
        · exact absurd hkind (kind_of_ownerOf htype)
      | struct | enum =>
        rw [hkind] at h
        simp only [Checked.bind_eq_ok, Prod.exists] at h
        obtain ⟨next, id, hnominal, _, heq, h⟩ := h
        cases heq
        have harity : program.arity (.nominal owner) = some 0 := by
          rw [← hzero, BodyTypes.typeParameters?, hkind]
          rfl
        obtain ⟨c, hc⟩ := Builder.exists_constructor (shape_not_open owner) harity
          (Nat.zero_le 2)
        obtain ⟨hcount, -, hextends⟩ := internShape_extends hsound .nil harity hc hnominal
        have hroot := (constructor_nominal hc).2.2 (.ofArguments c [] hcount) rfl
        refine ⟨_, hextends.congr (fun i => ⟨?_, ?_⟩) (fun _ => Iff.rfl), h⟩
        · rintro rfl
          exact ⟨hzero, .inr ⟨_, rfl, hroot, ClosedType.arguments_ofArguments ..⟩⟩
        · rintro ⟨-, ⟨hfunction, -⟩ | ⟨t, rfl, htype, harguments⟩⟩
          · cases hfunction
          · rw [nominal_unique htype hroot harguments (ClosedType.arguments_ofArguments ..)]
    · next hgeneric =>
      refine ⟨builder, (Extends.refl hsound).congr (fun i => ?_) (fun _ => Iff.rfl), h⟩
      exact iff_of_false (fun h => h) fun hi => hgeneric hi.1
  have hoccurrences := Extends.foldlM (P := fun _ => True) no_focus (fun _ _ _ _ _ _ => trivial)
    (fun occurrence _ b b' hb _ _ hstep => rootOccurrence_spec hb hstep) hfirst.sound trivial h
  refine (hfirst.trans no_focus hoccurrences).congr (fun i => or_congr_right ?_) (by simp)
  simp only [mem_occurrencesOf hmodule howner]
  constructor
  · rintro ⟨occurrence, -, hgains⟩
    exact ⟨occurrence, hgains⟩
  · rintro ⟨occurrence, view, hview, hpart⟩
    exact ⟨occurrence, ⟨view, hview⟩, view, hview, hpart⟩

theorem exists_module (h : program.Declared owner) :
    ∃ k module, program.modules[k]? = some module ∧ owner.module = .ofNat k := by
  have hmodule : ∃ module, program.module? owner.module = some module := by
    simp only [BodyTypes.Declared, BodyTypes.typeParameters?] at h
    split at h <;>
    · obtain ⟨count, hcount⟩ := Option.isSome_iff_exists.mp h
      simp only [BodyTypes.data?, BodyTypes.function?, Option.map_eq_some_iff, Option.bind_eq_bind,
        Option.bind_eq_some_iff] at hcount
      obtain ⟨_, ⟨module, hmodule, -⟩, -⟩ := hcount
      exact ⟨module, hmodule⟩
  obtain ⟨module, hmodule⟩ := hmodule
  exact ⟨owner.module.toNat, module, hmodule, UInt32.ofNat_toNat.symm⟩

theorem rootModule_spec {row : Module × ℕ} (hsound : Sound program builder)
    (hmodule : program.modules[row.2]? = some row.1)
    (h : (BodyTypes.declarations row.2 row.1).foldlM (fun builder declaration =>
      builder.rootDeclaration program.toBodyTypes row.1 declaration.2) builder = .ok builder') :
    Extends program noJob
      (fun i => ∃ declaration ∈ BodyTypes.declarations row.2 row.1,
        RootOf program.toBodyTypes declaration.2 i)
      (fun _ => False) builder builder' := by
  have hstep : ∀ declaration ∈ BodyTypes.declarations row.2 row.1, ∀ b b', Sound program b → True →
      (∀ job, noJob job → b.Interned job) →
      b.rootDeclaration program.toBodyTypes row.1 declaration.2 = .ok b' →
      Extends program noJob (RootOf program.toBodyTypes declaration.2) (fun _ => False) b b' := by
    intro declaration hmem b b' hb _ _ hstep
    obtain ⟨howner, -⟩ := (mem_declarations hmodule declaration.2).mp ⟨declaration, hmem, rfl⟩
    exact rootDeclaration_spec hb hmodule howner hstep
  exact (Extends.foldlM no_focus (fun _ _ _ _ _ _ => trivial) hstep hsound trivial h).congr
    (fun _ => Iff.rfl) (by simp)

/-- The roots are interned, and nothing else is. -/
theorem roots_spec (hsound : Sound program builder)
    (h : builder.roots program.toBodyTypes = .ok builder') :
    Extends program noJob (Root program.toBodyTypes) (fun _ => False) builder builder' := by
  have hstep : ∀ row ∈ program.modules.zipIdx, ∀ b b', Sound program b → True →
      (∀ job, noJob job → b.Interned job) →
      (BodyTypes.declarations row.2 row.1).foldlM (fun builder declaration =>
        builder.rootDeclaration program.toBodyTypes row.1 declaration.2) b = .ok b' →
      Extends program noJob
        (fun i => ∃ declaration ∈ BodyTypes.declarations row.2 row.1,
          RootOf program.toBodyTypes declaration.2 i) (fun _ => False) b b' :=
    fun row hrow b b' hb _ _ hstep =>
      rootModule_spec hb (mem_zipIdx_iff_getElem?.mp hrow) hstep
  have hmodules := Extends.foldlM no_focus (fun _ _ _ _ _ _ => trivial) hstep hsound trivial h
  refine hmodules.congr (fun i => ?_) (by simp)
  constructor
  · rintro ⟨row, hrow, declaration, hmem, hroot⟩
    have hmodule : program.modules[row.2]? = some row.1 := mem_zipIdx_iff_getElem?.mp hrow
    obtain ⟨-, hdeclared⟩ :=
      (mem_declarations hmodule declaration.2).mp ⟨declaration, hmem, rfl⟩
    obtain ⟨hzero, ⟨hkind, rfl⟩ | ⟨t, rfl, howner, harguments⟩⟩
      | ⟨occurrence, view, hview, t, rfl, hpart⟩ := hroot
    · exact .function hkind hzero
    · exact .data harguments howner hzero
    · exact .occurrence hdeclared hview hpart
  · intro hroot
    have hdeclaration : ∀ owner, program.Declared owner → RootOf program.toBodyTypes owner i →
        ∃ row ∈ program.modules.zipIdx, ∃ declaration ∈ BodyTypes.declarations row.2 row.1,
          RootOf program.toBodyTypes declaration.2 i := by
      intro owner hdeclared hroot
      obtain ⟨k, module, hmodule, howner⟩ := exists_module hdeclared
      obtain ⟨declaration, hmem, rfl⟩ :=
        (mem_declarations hmodule owner).mpr ⟨howner, hdeclared⟩
      exact ⟨(module, k), mem_zipIdx_iff_getElem?.mpr hmodule, declaration, hmem, hroot⟩
    have hdeclared : ∀ {owner}, program.typeParameters? owner = some 0 → program.Declared owner :=
      fun h => by rw [BodyTypes.Declared, h]; rfl
    cases hroot with
    | data hclosed howner h =>
      exact hdeclaration _ (hdeclared h) (.inl ⟨h, .inr ⟨_, rfl, howner, hclosed⟩⟩)
    | function hkind h => exact hdeclaration _ (hdeclared h) (.inl ⟨h, .inl ⟨hkind, rfl⟩⟩)
    | occurrence hdeclared hview hpart =>
      exact hdeclaration _ hdeclared (.inr ⟨_, _, hview, _, rfl, hpart⟩)

end Zryna.Semantics.Instantiation
