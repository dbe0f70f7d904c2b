import Zryna.Semantics.Instantiation.Processing

/-!
# Values

The bound of a declaration is unset only for a reason: from the declaration a type that is not
stored can be reached through the types that are written in declarations. A closed type of such a
declaration reaches a non-storable member, so the first flag of an interned type is sound. Once
every type lists its members, spreading makes the flags exact.
-/

namespace Zryna.Semantics.Instantiation

open Zryna.Ir.Generic Relation Checked List Option

variable {program : CheckedProgram} {bodies : BodyTypes} {builder builder' : Builder}

/-! ### Parts of a closed view -/

theorem closed_within {owner : DeclarationIdentity} {ts : List ClosedType} {part view : TypeView}
    {t : ClosedType} (hwithin : part.Within view) (hchecked : bodies.ViewChecked view)
    (h : view.closed bodies owner ts = some t) :
    ∃ u : ClosedType, part.closed bodies owner ts = some u ∧ u.Subterm t := by
  induction hwithin generalizing t with
  | self => exact ⟨t, h, .refl t⟩
  | @child shape _ _ count children i _ ih =>
    obtain ⟨harity, hchildren⟩ := hchecked
    have hparameter : ∀ parameter, shape ≠ .parameter parameter := by
      rintro parameter rfl
      cases harity
      exact i.elim0
    rw [closed_application hparameter] at h
    simp only [bind_eq_some_iff] at h
    obtain ⟨us, hus, c, -, h⟩ := h
    split at h
    · next hcount =>
      cases h
      have hchild := congrArg (·[i.val]?) (mapM_id_eq_some.mp hus)
      simp only [List.getElem?_ofFn, i.isLt, dif_pos, getElem?_map] at hchild
      obtain ⟨u, hu, heq⟩ := map_eq_some_iff.mp hchild.symm
      obtain ⟨v, hv, hinner⟩ := ih (hchildren i) heq.symm
      refine ⟨v, hv, .argument ?_ hinner⟩
      rw [ClosedType.arguments_ofArguments]
      exact mem_of_getElem? hu
    · cases h

theorem holds_of_subterm {t u : ClosedType} (h : u.Subterm t) :
    ReflTransGen (Holds bodies) t u := by
  induction h with
  | refl => exact .refl
  | argument hargument _ ih => exact ih.head (.argument hargument)

/-! ### Declarations that are not of values -/

/-- A type that is not stored is written in a declaration. -/
def WritesOpen (bodies : BodyTypes) (owner : DeclarationIdentity) : Prop :=
  ∃ occurrence view, bodies.sourceType owner occurrence = some view ∧ view.shape.Open
    ∧ ∀ parameter, view.shape ≠ .parameter parameter

/-- A declaration is written in another. -/
def WritesNominal (bodies : BodyTypes) (owner target : DeclarationIdentity) : Prop :=
  ∃ occurrence view, bodies.sourceType owner occurrence = some view ∧ view.shape = .nominal target

/-- What is written in a data declaration is part of a member. -/
theorem CheckedProgram.within_member {owner : DeclarationIdentity} {data : DataDeclaration}
    {occurrence : UInt32} {view : TypeView} (hdata : program.data? owner = some data)
    (hview : program.sourceType owner occurrence = some view) :
    ∃ member ∈ data.kind.members, ∃ whole, program.sourceType owner member = some whole
      ∧ view.Within whole := by
  simp only [BodyTypes.sourceType, BodyTypes.record?, BodyTypes.module?, bind_eq_bind,
    bind_eq_some_iff] at hview
  obtain ⟨record, ⟨module, hmodule, hrecord⟩, hview⟩ := hview
  split at hview
  · next howner =>
    obtain ⟨member, hmem, whole, hwhole, hwithin⟩ := program.data_sources module
      (mem_of_getElem? hmodule) record (mem_of_getElem? hrecord) data view
      (howner ▸ hdata) hview
    exact ⟨member, hmem, whole, howner ▸ hwhole, hwithin⟩
  · cases hview

/-- A type of a declaration that writes an open type has a non-storable member. -/
theorem WritesOpen.unstorable {owner : DeclarationIdentity} {data : DataDeclaration}
    (h : WritesOpen program.toBodyTypes owner) {t : ClosedType} (howner : ownerOf t = some owner)
    (hdata : program.data? owner = some data) : Unstorable program.toBodyTypes t := by
  obtain ⟨occurrence, view, hview, hopen, hnot⟩ := h
  obtain ⟨member, hmem, whole, hwhole, hwithin⟩ := program.within_member hdata hview
  refine ⟨t, .refl, owner, member, ⟨howner, data, hdata, hmem⟩, ?_⟩
  rw [BodyTypes.closedSource, hwhole, bind_some]
  cases hclosed : whole.closed program.toBodyTypes owner t.arguments with
  | none => rfl
  | some u =>
    obtain ⟨v, hv, -⟩ := closed_within hwithin (program.sourceType_checked hwhole) hclosed
    cases view with
    | node shape originalSpan headSpan count children =>
      have hnone := @closed_open program.toBodyTypes owner t.arguments shape originalSpan headSpan
        count children hopen hnot
      cases hnone.symm.trans hv

/-- A type of a declaration that writes another holds a type of it, or has a non-storable
member. -/
theorem WritesNominal.unstorable {owner target : DeclarationIdentity} {data : DataDeclaration}
    (h : WritesNominal program.toBodyTypes owner target) {t : ClosedType}
    (howner : ownerOf t = some owner) (hdata : program.data? owner = some data)
    (htarget : ∀ u, ownerOf u = some target → Unstorable program.toBodyTypes u) :
    Unstorable program.toBodyTypes t := by
  obtain ⟨occurrence, view, hview, hshape⟩ := h
  obtain ⟨member, hmem, whole, hwhole, hwithin⟩ := program.within_member hdata hview
  have hmember : MemberAt program.toBodyTypes t owner member := ⟨howner, data, hdata, hmem⟩
  have hsource : program.closedSource owner t.arguments member
      = whole.closed program.toBodyTypes owner t.arguments := by
    rw [BodyTypes.closedSource, hwhole, bind_some]
  cases hclosed : whole.closed program.toBodyTypes owner t.arguments with
  | none => exact ⟨t, .refl, owner, member, hmember, hsource.trans hclosed⟩
  | some u =>
    obtain ⟨v, hv, hinner⟩ := closed_within hwithin (program.sourceType_checked hwhole) hclosed
    have hv' : ownerOf v = some target := by
      cases view with
      | node shape originalSpan headSpan count children =>
        obtain rfl : shape = .nominal target := hshape
        rw [closed_application fun _ => TypeShape.noConfusion] at hv
        simp only [bind_eq_some_iff] at hv
        obtain ⟨us, -, c, hc, hv⟩ := hv
        split at hv
        · cases hv
          exact (constructor_nominal hc).2.2 _ rfl
        · cases hv
    obtain ⟨w, hpath, hw⟩ := htarget v hv'
    exact ⟨w, ((holds_of_subterm hinner).trans hpath).head
      (.member hmember (hsource.trans hclosed)), hw⟩

/-! ### Bounds -/

namespace Bounds

variable {owners : List DeclarationIdentity}

theorem ownerOrder_injective {a b : DeclarationIdentity} (h : ownerOrder a = ownerOrder b) :
    a = b := by
  obtain ⟨m, k, i⟩ := a
  obtain ⟨m', k', i'⟩ := b
  simp only [ownerOrder, List.cons.injEq, UInt32.toNat_inj, and_true] at h
  obtain ⟨rfl, hkind, rfl⟩ := h
  cases k <;> cases k' <;> first | rfl | exact absurd hkind (by decide)

theorem index_eq_ok {owner : DeclarationIdentity} {i : ℕ} (h : index owners owner = .ok i) :
    owners[i]? = some owner := by
  rw [index, mapError_eq_ok] at h
  obtain ⟨found, hfound, hkey⟩ := SortedSlice.exists_of_search h
  rw [hfound, ownerOrder_injective hkey]

/-- What is recorded of the types that are written in declarations. -/
structure Recorded (bodies : BodyTypes) (owners : List DeclarationIdentity)
    (state : List Bool × List (List ℕ)) : Prop where
  values_length : state.1.length = owners.length
  unset : ∀ i : ℕ, state.1[i]? = some false → ∃ owner, owners[i]? = some owner ∧ WritesOpen bodies owner
  parents : ∀ (t : ℕ) (is : List ℕ), state.2[t]? = some is → ∀ i ∈ is, ∃ owner target,
    owners[i]? = some owner ∧ owners[t]? = some target ∧ WritesNominal bodies owner target

theorem Recorded.row {state state' : List Bool × List (List ℕ)}
    {written : DeclarationIdentity × UInt32} (hrecorded : Recorded bodies owners state)
    (h : Bounds.row bodies owners state written = .ok state') : Recorded bodies owners state' := by
  unfold Bounds.row at h
  split at h
  · exact Except.ok.inj h ▸ hrecorded
  · obtain ⟨i, hi, h⟩ := bind_eq_ok.mp h
    have howner := index_eq_ok hi
    have hopen : ∀ view, bodies.sourceType written.1 written.2 = some view → view.shape.Open →
        (∀ parameter, view.shape ≠ .parameter parameter) →
        Recorded bodies owners (state.1.set i false, state.2) := by
      intro view hview hopen hnot
      refine ⟨by rw [length_set]; exact hrecorded.values_length, fun j hj => ?_,
        hrecorded.parents⟩
      by_cases heq : i = j
      · subst heq
        exact ⟨written.1, howner, written.2, view, hview, hopen, hnot⟩
      · rw [getElem?_set_ne heq] at hj
        exact hrecorded.unset j hj
    split at h
    · cases h
    · next view hview =>
      split at h
      case h_5 target hshape =>
        obtain ⟨t, ht, h⟩ := bind_eq_ok.mp h
        have htarget := index_eq_ok ht
        cases h
        refine ⟨hrecorded.values_length, hrecorded.unset, fun s is his j hj => ?_⟩
        rw [getElem?_modify] at his
        obtain ⟨old, hold, rfl⟩ := map_eq_some_iff.mp his
        split at hj
        · next heq =>
          subst heq
          obtain hj | hj := mem_append.mp hj
          · exact hrecorded.parents t old hold j hj
          · rw [mem_singleton.mp hj]
            exact ⟨written.1, target, howner, htarget, written.2, view, hview, hshape⟩
        · exact hrecorded.parents s old hold j hj
      case h_6 => exact Except.ok.inj h ▸ hrecorded
      all_goals
        next hshape =>
          cases h
          exact hopen view hview (by rw [hshape]; trivial)
            fun parameter heq => nomatch hshape.symm.trans heq

theorem exists_data {owner : DeclarationIdentity} (h : owner ∈ program.dataIdentities) :
    ∃ data, program.data? owner = some data := by
  obtain ⟨row, hrow, howner⟩ := mem_flatten.mp h
  obtain ⟨m, hm, rfl⟩ := mem_mapIdx.mp hrow
  obtain ⟨i, hi, rfl⟩ := mem_mapIdx.mp howner
  have hm' : (UInt32.ofNat m).toNat = m :=
    UInt32.toNat_ofNat_of_lt' (lt_trans hm program.modules_lt)
  have hi' : (UInt32.ofNat i).toNat = i :=
    UInt32.toNat_ofNat_of_lt' (lt_trans hi (program.data_lt _ (getElem_mem hm)))
  refine ⟨program.modules[m].dataDeclarations[i], ?_⟩
  simp only [BodyTypes.data?, BodyTypes.module?, dataIdentity, hm', hi', bind_eq_bind,
    getElem?_eq_getElem hm, bind_some, getElem?_eq_getElem hi, if_true]

/-- The bound of a declaration is unset for a reason. -/
theorem sound {bounds : Bounds} (h : Bounds.new program.toBodyTypes = .ok bounds)
    {owner : DeclarationIdentity} {t : ClosedType} (hfalse : bounds.value owner = .ok false)
    (howner : ownerOf t = some owner) : Unstorable program.toBodyTypes t := by
  obtain ⟨⟨values, reverse⟩, hfold, h⟩ := bind_eq_ok.mp h
  cases h
  set owners := program.dataIdentities.insertionSort fun a b => ownerOrder a ≤ ownerOrder b
    with howners
  have hrecorded : Recorded program.toBodyTypes owners (values, reverse) := by
    refine foldlM_invariant (fun _ _ _ h hs => hs.row h) hfold
      ⟨length_replicate .., fun i hi => ?_, fun t is his i hi => ?_⟩
    · rw [getElem?_replicate] at hi
      split at hi <;> simp at hi
    · rw [getElem?_replicate] at his
      split at his
      · rw [← Option.some.inj his] at hi
        cases hi
      · cases his
  have hparents : ∀ a b, a ∈ reverse.getD b [] → ∃ owner target, owners[a]? = some owner
      ∧ owners[b]? = some target ∧ WritesNominal program.toBodyTypes owner target := by
    intro a b hab
    rw [getD_eq_getElem?_getD] at hab
    cases his : reverse[b]? with
    | none =>
      rw [his] at hab
      cases hab
    | some is =>
      rw [his] at hab
      exact hrecorded.parents b is his a hab
  obtain ⟨i, hi, hvalue⟩ := bind_eq_ok.mp hfalse
  have hat := index_eq_ok hi
  have hflag : (spread (fun i => reverse.getD i []) values ((List.range owners.length).filter
      fun i => values[i]? = some false).reverse)[i]? = some false := by
    split at hvalue
    · next value hget => rw [hget, Except.ok.inj hvalue]
    · cases hvalue
  rw [spread_spec (fun v u hu => ?_) (fun u => ?_)] at hflag
  · obtain ⟨w, hw, hpath⟩ := hflag
    -- along the path, from the declaration that writes an open type
    clear hfalse hi hvalue
    induction hpath using ReflTransGen.head_induction_on generalizing owner t with
    | refl =>
      obtain ⟨owner', hat', hopen⟩ := hrecorded.unset w hw
      obtain rfl := Option.some.inj (hat.symm.trans hat')
      obtain ⟨data, hdata⟩ := exists_data
        ((mem_insertionSort _).mp (howners ▸ mem_of_getElem? hat))
      exact hopen.unstorable howner hdata
    | head hstep _ ih =>
      obtain ⟨owner', target, hat', htarget, hwrites⟩ := hparents _ _ hstep
      obtain rfl := Option.some.inj (hat.symm.trans hat')
      obtain ⟨data, hdata⟩ := exists_data
        ((mem_insertionSort _).mp (howners ▸ mem_of_getElem? hat))
      exact hwrites.unstorable howner hdata fun u hu => ih hu htarget
  · obtain ⟨owner', target, hat', -⟩ := hparents u v hu
    rw [hrecorded.values_length]
    exact (List.getElem?_eq_some_iff.mp hat').1
  · simp only [mem_reverse, mem_filter, mem_range, decide_eq_true_eq]
    refine ⟨And.right, fun hu => ⟨?_, hu⟩⟩
    rw [← hrecorded.values_length]
    exact (List.getElem?_eq_some_iff.mp hu).1

end Bounds

theorem sound_new (h : Builder.new program.toBodyTypes = .ok builder) : Sound program builder := by
  have hinv := inventory_new h
  obtain ⟨bounds, hbounds, rfl⟩ := new_eq_ok.mp h
  refine ⟨hinv, fun id node t hnode _ hfalse => ?_, fun owner t => Bounds.sound hbounds⟩
  have hvalues : ∀ node ∈ (Builder.scalars bounds).types, node.value = true := by
    simp [Builder.scalars]
  rw [hvalues node (mem_of_getElem? hnode)] at hfalse
  cases hfalse

/-! ### Final values -/

theorem mem_dependents {a b : ℕ} :
    a ∈ builder.dependents b
      ↔ ∃ node : Node, builder.types[a]? = some node ∧ (b ∈ node.arguments ∨ b ∈ node.members) := by
  simp only [Builder.dependents, mem_flatMap, mem_filterMap, mem_append]
  constructor
  · rintro ⟨⟨node, i⟩, hrow, child, hchild, hif⟩
    split at hif
    · next heq =>
      obtain rfl : i = a := Option.some.inj hif
      exact ⟨node, mk_mem_zipIdx_iff_getElem?.mp hrow, heq ▸ hchild⟩
    · cases hif
  · rintro ⟨node, hnode, hchild⟩
    exact ⟨(node, a), mk_mem_zipIdx_iff_getElem?.mpr hnode, b, hchild, if_pos rfl⟩

section Final

variable {id : ℕ} {t : ClosedType}

/-- Every node lists its members. -/
def AllExact (bodies : BodyTypes) (builder : Builder) : Prop :=
  ∀ (id : ℕ) (node : Node) t, builder.types[id]? = some node → node.key = t.key →
    MembersExact bodies builder.types t node

/-- What a node lists is held by its type. -/
theorem holds_of_dependents (hsound : Sound program builder)
    (hexact : AllExact program.toBodyTypes builder) {a b : ℕ} {u : ClosedType}
    (hab : a ∈ builder.dependents b) (ht : Denotes builder.types a t)
    (hu : Denotes builder.types b u) : Holds program.toBodyTypes t u := by
  rw [mem_dependents] at hab
  obtain ⟨node, hnode, hlists⟩ := hab
  obtain ⟨other, hother, hok⟩ := hsound.inventory.denoted ht
  obtain rfl : other = node := Option.some.inj (hother.symm.trans hnode)
  obtain hargument | hmember := hlists
  · obtain ⟨v, hv, hdenotes⟩ := exists_denoted hok.arguments hargument
    rw [hsound.inventory.denotes_unique hu hdenotes.of_take]
    exact .argument hv
  · have hmembers := hexact a other t hother hok.key
    cases howner : ownerOf t with
    | none =>
      rw [hmembers.other howner] at hmember
      cases hmember
    | some owner =>
      have hshape := shape_of_ownerOf hok.constructor howner
      obtain ⟨⟨data, hdata⟩, -⟩ := constructor_nominal (hshape ▸ hok.constructor)
      obtain ⟨occurrence, hmem, v, hv, hdenotes⟩ :=
        (hmembers.nominal owner data howner hdata).mem b hmember
      rw [hsound.inventory.denotes_unique hu hdenotes]
      exact .member ⟨howner, data, hdata, hmem⟩ hv

/-- What a type holds is listed by its node. -/
theorem exists_dependents (hsound : Sound program builder)
    (hexact : AllExact program.toBodyTypes builder) {a : ℕ} {u : ClosedType}
    (ht : Denotes builder.types a t) (h : Holds program.toBodyTypes t u) :
    ∃ b, a ∈ builder.dependents b ∧ Denotes builder.types b u := by
  obtain ⟨node, hnode, hok⟩ := hsound.inventory.denoted ht
  cases h with
  | argument hargument =>
    obtain ⟨b, hb, hdenotes⟩ := exists_denotes hok.arguments hargument
    refine ⟨b, ?_, hdenotes.of_take⟩
    rw [mem_dependents]
    exact ⟨node, hnode, .inl hb⟩
  | member hmember hclosed =>
    obtain ⟨data, hdata, hmem⟩ := hmember.mem
    obtain ⟨b, hb, hdenotes⟩ :=
      ((hexact a node t hnode hok.key).nominal _ data hmember.nominal hdata).listed _ hmem u hclosed
    refine ⟨b, ?_, hdenotes⟩
    rw [mem_dependents]
    exact ⟨node, hnode, .inr hb⟩

theorem getElem?_values : (builder.types.map Node.value)[id]? = some false
    ↔ ∃ node : Node, builder.types[id]? = some node ∧ node.value = false := by
  rw [getElem?_map, map_eq_some_iff]

theorem finalValues_spec (hsound : Sound program builder)
    (hexact : AllExact program.toBodyTypes builder) :
    builder.finalValues.length = builder.types.length
      ∧ ∀ id t, Denotes builder.types id t →
        (builder.finalValues[id]? = some false ↔ Unstorable program.toBodyTypes t) := by
  have hrange : ∀ v, ∀ u ∈ builder.dependents v, u < (builder.types.map Node.value).length := by
    intro v u hu
    rw [mem_dependents] at hu
    obtain ⟨node, hnode, -⟩ := hu
    rw [length_map]
    exact (List.getElem?_eq_some_iff.mp hnode).1
  have hpending : ∀ u, u ∈ ((List.range (builder.types.map Node.value).length).filter
      fun id => (builder.types.map Node.value)[id]? = some false).reverse
        ↔ (builder.types.map Node.value)[u]? = some false := by
    intro u
    simp only [mem_reverse, mem_filter, mem_range, decide_eq_true_eq]
    exact ⟨And.right, fun hu => ⟨(List.getElem?_eq_some_iff.mp hu).1, hu⟩⟩
  refine ⟨(length_spread hrange hpending).trans (length_map ..), fun id t ht => ?_⟩
  rw [Builder.finalValues, spread_spec hrange hpending]
  constructor
  · rintro ⟨w, hw, hpath⟩
    rw [getElem?_values] at hw
    obtain ⟨last, hlast, hvalue⟩ := hw
    obtain ⟨u, hu⟩ := hsound.inventory.types w last hlast
    have hunstorable := hsound.values w last u hlast hu.key hvalue
    -- back along the path
    induction hpath using ReflTransGen.head_induction_on generalizing t with
    | refl =>
      obtain rfl := hsound.inventory.denotes_unique ht ⟨last, hlast, hu.key⟩
      exact hunstorable
    | @head a b hab hrest ih =>
      obtain ⟨v, hv⟩ : ∃ v, Denotes builder.types b v := by
        have hlt : b < builder.types.length := by
          cases hrest using ReflTransGen.head_induction_on with
          | refl => exact (List.getElem?_eq_some_iff.mp hlast).1
          | head hbc _ _ =>
            have := hrange _ _ hbc
            rwa [length_map] at this
        obtain ⟨v, hv⟩ := hsound.inventory.types b _ (getElem?_eq_getElem hlt)
        exact ⟨v, _, getElem?_eq_getElem hlt, hv.key⟩
      exact .of_holds (holds_of_dependents hsound hexact hab ht hv) (ih v hv)
  · rintro ⟨u, hpath, owner, occurrence, hmember, hclosed⟩
    induction hpath using ReflTransGen.head_induction_on generalizing id with
    | refl =>
      obtain ⟨node, hnode, hkey⟩ := ht
      obtain ⟨data, hdata, hmem⟩ := hmember.mem
      have hvalue := ((hexact id node u hnode hkey).nominal owner data hmember.nominal hdata).value
        occurrence hmem hclosed
      refine ⟨id, ?_, .refl⟩
      rw [getElem?_values]
      exact ⟨node, hnode, hvalue⟩
    | head hstep _ ih =>
      obtain ⟨b, hab, hb⟩ := exists_dependents hsound hexact ht hstep
      obtain ⟨w, hw, hrest⟩ := ih b hb
      exact ⟨w, hw, hrest.head hab⟩

theorem types_valueArguments : builder.valueArguments.types
    = List.zipWith (fun (node : Node) value => { node with value := value }) builder.types
      builder.finalValues := by
  have hreport : ∀ (b : Builder) (id : ℕ) (span : Option UntrustedSpan),
      (b.reportArgument id span).types = b.types := by
    intro b id span
    unfold Builder.reportArgument
    split <;> rfl
  have hfold : ∀ (uses : List (ℕ × Option UntrustedSpan)) (b : Builder),
      (uses.foldl (fun builder use => builder.reportArgument use.1 use.2) b).types = b.types := by
    intro uses
    induction uses with
    | nil => exact fun _ => rfl
    | cons use uses ih => exact fun b => (ih _).trans (hreport b use.1 use.2)
  exact hfold _ _

/-- A type is found to be a value exactly when no non-storable member is reachable from it. -/
theorem isValue_valueArguments (hsound : Sound program builder)
    (hexact : AllExact program.toBodyTypes builder) (ht : Denotes builder.types id t) :
    builder.valueArguments.isValue id = true ↔ ¬ Unstorable program.toBodyTypes t := by
  obtain ⟨hlength, hvalues⟩ := finalValues_spec hsound hexact
  rw [← hvalues id t ht]
  obtain ⟨node, hnode, -⟩ := ht
  obtain ⟨value, hvalue⟩ : ∃ value, builder.finalValues[id]? = some value :=
    ⟨_, getElem?_eq_getElem (hlength ▸ (List.getElem?_eq_some_iff.mp hnode).1)⟩
  rw [Builder.isValue, types_valueArguments, getElem?_zipWith, hnode, hvalue]
  cases value <;> simp

end Final

end Zryna.Semantics.Instantiation
