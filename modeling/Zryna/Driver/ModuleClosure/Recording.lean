import Zryna.Driver.ModuleClosure.Closure

/-!
# What a round records

The effect of recording imports, as sets: `Recorded` says what has become of a discovery after some
targets and some edges. It composes, so that the effect of a whole batch follows from that of one
binding. The second half says which errors recording may stop with.
-/

namespace Zryna.Driver.ModuleClosure

open List

open Checked (ErrorsIn bind_eq_ok)

variable {WorkerError : Type}

/-! ### Budgets -/

/-- A budget is exceeded: one of discovery itself, or one of the provider's. -/
def OverBudget (timedOut : WorkerError → Prop) : ModuleClosureError WorkerError → Prop
  | .frontend error => timedOut error
  | .rejected diagnostics => ∃ diagnostic ∈ diagnostics, diagnostic.code = "ZRYNA-D3201"

section Budgets

variable {timedOut : WorkerError → Prop}

theorem overBudget_budgetRejection (message : String) :
    OverBudget timedOut (budgetRejection message) :=
  ⟨_, mem_singleton_self _, rfl⟩

theorem checkedAdd_eq_ok {left right sum : ℕ}
    (h : (checkedAdd left right : Except (ModuleClosureError WorkerError) ℕ) = .ok sum) :
    sum = left + right := by
  unfold checkedAdd at h
  split at h
  · cases h
    rfl
  · cases h

theorem checkedAdd_errors (left right : ℕ) : ErrorsIn (OverBudget timedOut) (checkedAdd left right) :=
  .ite (fun _ => .ok _) fun _ => .error (overBudget_budgetRejection _)

theorem accountEdgeManifestBytes_errors (total : ℕ)
    (importer target specifier importedBinding localName : String) :
    ErrorsIn (OverBudget timedOut)
      (accountEdgeManifestBytes total importer target specifier importedBinding localName) := by
  unfold accountEdgeManifestBytes accountEdgeManifestBudget
  refine .bind (.foldlM fun _ _ _ _ _ _ => checkedAdd_errors _ _) fun raw _ => ?_
  refine .ite (fun _ => .error (overBudget_budgetRejection _)) fun _ => ?_
  refine .bind (checkedAdd_errors _ _) fun estimated _ => ?_
  refine .bind (checkedAdd_errors _ _) fun total _ => ?_
  exact .ite (fun _ => .error (overBudget_budgetRejection _)) fun _ => .ok _

/-- What an edge was charged covers its texts. -/
theorem accountEdgeManifestBytes_eq_ok {total total' : ℕ}
    {importer target specifier importedBinding localName : String}
    (h : (accountEdgeManifestBytes total importer target specifier importedBinding localName :
      Except (ModuleClosureError WorkerError) ℕ) = .ok total') :
    utf8Length specifier.toList ≤ maxModuleEdgeManifestBytes
      ∧ utf8Length importedBinding.toList ≤ maxModuleEdgeManifestBytes
      ∧ utf8Length localName.toList ≤ maxModuleEdgeManifestBytes := by
  unfold accountEdgeManifestBytes accountEdgeManifestBudget at h
  obtain ⟨raw, hraw, h⟩ := bind_eq_ok.mp h
  split at h
  · cases h
  obtain ⟨estimated, hestimated, h⟩ := bind_eq_ok.mp h
  obtain ⟨sum, hsum, h⟩ := bind_eq_ok.mp h
  split at h
  · cases h
  next hle =>
  simp only [foldlM_cons, foldlM_nil, bind_eq_ok, Checked.pure_eq_ok] at hraw
  obtain ⟨a, ha, b, hb, c, hc, d, hd, e, he, rfl⟩ := hraw
  have := checkedAdd_eq_ok ha
  have := checkedAdd_eq_ok hb
  have := checkedAdd_eq_ok hc
  have := checkedAdd_eq_ok hd
  have := checkedAdd_eq_ok he
  have := checkedAdd_eq_ok hestimated
  have := checkedAdd_eq_ok hsum
  omega

end Budgets

/-! ### Recording -/

def bindingEdge (path target : NormalizedSourcePath) (specifier : String)
    (binding : BindingFingerprint) : ResolvedEdge :=
  ⟨⟨path, specifier, binding.imported, binding.localName⟩, target⟩

def edgesOfImport (path : NormalizedSourcePath) (declaration : ImportFingerprint) :
    List ResolvedEdge :=
  match resolveExplicitZryImport path declaration.specifier with
  | none => []
  | some target => declaration.bindings.map (bindingEdge path target declaration.specifier)

section

variable (path : NormalizedSourcePath) (imports : List ImportFingerprint)

/-- The edges of a module. -/
def edgesOf : List ResolvedEdge :=
  imports.flatMap (edgesOfImport path)

/-- The modules that a module imports. -/
def targetsOf : List NormalizedSourcePath :=
  imports.filterMap fun declaration => resolveExplicitZryImport path declaration.specifier

end

/-- The texts of an edge are short enough to be written. -/
def EdgeIdentity.Short (identity : EdgeIdentity) : Prop :=
  utf8Length identity.specifier.toList ≤ maxModuleEdgeManifestBytes
    ∧ utf8Length identity.imported.toList ≤ maxModuleEdgeManifestBytes
    ∧ utf8Length identity.localName.toList ≤ maxModuleEdgeManifestBytes

/-- What recording targets and edges makes of a discovery, where some modules are known already. -/
structure Recorded (known : NormalizedSourcePath → Prop) (targets : List NormalizedSourcePath)
    (edges : List ResolvedEdge) (d d' : Discovery) : Prop where
  fixed : d'.aggregateBytes = d.aggregateBytes ∧ d'.providerBytes = d.providerBytes
    ∧ d'.providerCalls = d.providerCalls ∧ d'.rounds = d.rounds
  portable : ∀ key path, d'.portablePaths.get? key = some path ↔
    d.portablePaths.get? key = some path ∨ path ∈ targets ∧ key = path.portableIdentity
  pending : ∀ path, path ∈ d'.pending.keys ↔ path ∈ d.pending.keys ∨ path ∈ targets ∧ ¬known path
  identities : d'.edgeIdentities = d.edgeIdentities ∪ (edges.map ResolvedEdge.identity).toFinset
  fresh : ∀ edge ∈ edges, edge.identity ∉ d.edgeIdentities
  nodup : (edges.map ResolvedEdge.identity).Nodup
  appended : d'.resolvedEdges = d.resolvedEdges ++ edges
  short : ∀ edge ∈ edges, edge.identity.Short
  card_le : d.edgeIdentities.card ≤ maxModuleImportEdges →
    d'.edgeIdentities.card ≤ maxModuleImportEdges

namespace Recorded

variable {known : NormalizedSourcePath → Prop} {targets targets' : List NormalizedSourcePath}
  {edges edges' : List ResolvedEdge} {d d' d'' : Discovery}

theorem refl : Recorded known [] [] d d where
  fixed := ⟨rfl, rfl, rfl, rfl⟩
  portable := by simp
  pending := by simp
  identities := by simp
  fresh := nofun
  nodup := .nil
  appended := (append_nil _).symm
  short := nofun
  card_le := id

theorem trans (h : Recorded known targets edges d d') (h' : Recorded known targets' edges' d' d'') :
    Recorded known (targets ++ targets') (edges ++ edges') d d'' where
  fixed := ⟨h'.fixed.1.trans h.fixed.1, h'.fixed.2.1.trans h.fixed.2.1,
    h'.fixed.2.2.1.trans h.fixed.2.2.1, h'.fixed.2.2.2.trans h.fixed.2.2.2⟩
  portable := fun key path => by
    rw [h'.portable, h.portable, mem_append]
    tauto
  pending := fun path => by
    rw [h'.pending, h.pending, mem_append]
    tauto
  identities := by
    rw [h'.identities, h.identities, map_append, toFinset_append, Finset.union_assoc]
  fresh := fun edge hmem => by
    obtain hmem | hmem := mem_append.mp hmem
    · exact h.fresh edge hmem
    · have hnot := h'.fresh edge hmem
      rw [h.identities, Finset.mem_union, not_or] at hnot
      exact hnot.1
  nodup := by
    rw [map_append]
    refine h.nodup.append h'.nodup fun identity hmem hmem' => ?_
    obtain ⟨edge, hedge, rfl⟩ := mem_map.mp hmem'
    refine h'.fresh edge hedge ?_
    rw [h.identities, Finset.mem_union, mem_toFinset]
    exact .inr hmem
  appended := by rw [h'.appended, h.appended, append_assoc]
  short := fun edge hmem => (mem_append.mp hmem).elim (h.short edge) (h'.short edge)
  card_le := fun hle => h'.card_le (h.card_le hle)

end Recorded

section Success

variable (known : NormalizedSourcePath → Prop) {path target : NormalizedSourcePath}
  {d d' : Discovery}
  {batchImports : OrderedMap NormalizedSourcePath (List ImportFingerprint)}

theorem registerPortablePath_eq_ok {paths paths' : OrderedMap String NormalizedSourcePath}
    (h : (registerPortablePath paths path : Except (ModuleClosureError WorkerError) _)
      = .ok paths') (key : String) (other : NormalizedSourcePath) :
    paths'.get? key = some other ↔
      paths.get? key = some other ∨ other = path ∧ key = other.portableIdentity := by
  unfold registerPortablePath at h
  split at h
  · next existing hexisting =>
    split at h
    · cases h
    · next heq =>
      obtain rfl := not_not.mp heq
      cases h
      constructor
      · exact .inl
      · rintro (h | ⟨rfl, rfl⟩)
        · exact h
        · exact hexisting
  · next hnone =>
    cases h
    rw [OrderedMap.get?_insert]
    by_cases heq : key = path.portableIdentity
    · subst heq
      rw [if_pos rfl, hnone]
      constructor
      · rintro ⟨⟩
        exact .inr ⟨rfl, rfl⟩
      · rintro (h | ⟨rfl, -⟩)
        · cases h
        · rfl
    · rw [if_neg heq]
      constructor
      · exact .inl
      · rintro (h | ⟨rfl, h⟩)
        · exact h
        · exact absurd h heq

theorem recordBinding_eq_ok {specifier : String} {binding : BindingFingerprint}
    (h : (recordBinding path target specifier d binding :
      Except (ModuleClosureError WorkerError) _) = .ok d') :
    Recorded known [] [bindingEdge path target specifier binding] d d'
      ∧ d'.discovered = d.discovered := by
  obtain ⟨bytes, hbytes, h⟩ := bind_eq_ok.mp h
  unfold registerEdge at h
  split at h
  · cases h
  next hfresh =>
  split at h
  · cases h
  next hcard =>
  cases h
  refine ⟨⟨⟨rfl, rfl, rfl, rfl⟩, by simp, by simp, ?_, ?_, by simp, rfl, ?_, ?_⟩, rfl⟩
  · ext identity
    simp [bindingEdge, or_comm]
  · exact forall_mem_singleton.mpr hfresh
  · exact forall_mem_singleton.mpr (accountEdgeManifestBytes_eq_ok hbytes)
  · exact fun _ => (Finset.card_insert_le _ _).trans (Nat.not_le.mp hcard)

theorem recordBindings_eq_ok {specifier : String} {bindings : List BindingFingerprint}
    (h : bindings.foldlM (recordBinding path target specifier) d
      = (.ok d' : Except (ModuleClosureError WorkerError) _)) :
    Recorded known [] (bindings.map (bindingEdge path target specifier)) d d'
      ∧ d'.discovered = d.discovered := by
  induction bindings generalizing d with
  | nil =>
    rw [foldlM_nil, Checked.pure_eq_ok] at h
    exact ⟨h ▸ .refl, h ▸ rfl⟩
  | cons binding bindings ih =>
    rw [foldlM_cons, bind_eq_ok] at h
    obtain ⟨next, hnext, h⟩ := h
    obtain ⟨hfirst, hdiscovered⟩ := recordBinding_eq_ok known hnext
    obtain ⟨hrest, hdiscovered'⟩ := ih h
    exact ⟨hfirst.trans hrest, hdiscovered'.trans hdiscovered⟩

section

variable
  (hknown : ∀ path, known path ↔ d.discovered.get? path ≠ none ∨ batchImports.get? path ≠ none)

include hknown

theorem recordImport_eq_ok {declaration : ImportFingerprint}
    (h : (recordImport batchImports path d declaration :
      Except (ModuleClosureError WorkerError) _) = .ok d') :
    (resolveExplicitZryImport path declaration.specifier).isSome
      ∧ Recorded known (targetsOf path [declaration]) (edgesOfImport path declaration) d d'
      ∧ d'.discovered = d.discovered := by
  obtain ⟨importDeclarations, -, h⟩ := bind_eq_ok.mp h
  split at h
  · cases h
  split at h
  · cases h
  next target hresolve =>
  obtain ⟨portablePaths, hportable, h⟩ := bind_eq_ok.mp h
  obtain ⟨next, hnext, h⟩ := bind_eq_ok.mp h
  obtain ⟨hrecorded, hdiscovered⟩ := recordBindings_eq_ok known hnext
  have htargets : targetsOf path [declaration] = [target] := by
    simp [targetsOf, hresolve]
  have hedges : edgesOfImport path declaration
      = declaration.bindings.map (bindingEdge path target declaration.specifier) := by
    rw [edgesOfImport, hresolve]
  -- the target is pending from now on unless it is known
  have hpending : ∃ pending, d' = { next with pending := pending }
      ∧ ∀ other, other ∈ pending.keys ↔
        other ∈ next.pending.keys ∨ other = target ∧ ¬known other := by
    have hnot : ¬known target ↔
        (next.discovered.get? target).isNone ∧ (batchImports.get? target).isNone := by
      rw [hknown, hdiscovered, Option.isNone_iff_eq_none, Option.isNone_iff_eq_none]
      tauto
    split at h
    · next hnew =>
      refine ⟨_, (Except.ok.inj h).symm, fun other => ?_⟩
      rw [OrderedMap.mem_keys_insert, or_comm]
      constructor
      · rintro (hmem | rfl)
        · exact .inl hmem
        · exact .inr ⟨rfl, hnot.mpr hnew⟩
      · exact Or.imp_right And.left
    · next hold =>
      refine ⟨_, (Except.ok.inj h).symm, fun other => ⟨.inl, ?_⟩⟩
      rintro (hmem | ⟨rfl, hnew⟩)
      · exact hmem
      · exact absurd (hnot.mp hnew) hold
  obtain ⟨pending, rfl, hpending⟩ := hpending
  refine ⟨by simp [hresolve], ?_, hdiscovered⟩
  rw [htargets, hedges]
  exact {
    fixed := hrecorded.fixed
    portable := fun key other => by
      rw [hrecorded.portable, mem_singleton]
      simp only [not_mem_nil, false_and, or_false]
      exact registerPortablePath_eq_ok hportable key other
    pending := fun other => by
      rw [hpending, hrecorded.pending, mem_singleton]
      simp only [not_mem_nil, false_and, or_false]
    identities := hrecorded.identities
    fresh := hrecorded.fresh
    nodup := hrecorded.nodup
    appended := hrecorded.appended
    short := hrecorded.short
    card_le := hrecorded.card_le }

theorem recordImports_eq_ok {imports : List ImportFingerprint}
    (h : imports.foldlM (recordImport batchImports path) d
      = (.ok d' : Except (ModuleClosureError WorkerError) _)) :
    (∀ declaration ∈ imports, (resolveExplicitZryImport path declaration.specifier).isSome)
      ∧ Recorded known (targetsOf path imports) (edgesOf path imports) d d'
      ∧ d'.discovered = d.discovered := by
  induction imports generalizing d with
  | nil =>
    rw [foldlM_nil, Checked.pure_eq_ok] at h
    exact ⟨nofun, h ▸ .refl, h ▸ rfl⟩
  | cons declaration imports ih =>
    rw [foldlM_cons, bind_eq_ok] at h
    obtain ⟨next, hnext, h⟩ := h
    obtain ⟨hresolves, hfirst, hdiscovered⟩ := recordImport_eq_ok known hknown hnext
    obtain ⟨hrest, hlater, hdiscovered'⟩ := ih (hdiscovered ▸ hknown) h
    have htargets : targetsOf path (declaration :: imports)
        = targetsOf path [declaration] ++ targetsOf path imports :=
      filterMap_append (l := [declaration])
    rw [htargets]
    exact ⟨forall_mem_cons.mpr ⟨hresolves, hrest⟩, hfirst.trans hlater,
      hdiscovered'.trans hdiscovered⟩

section

variable (batchImports : OrderedMap NormalizedSourcePath (List ImportFingerprint))

def importsIn (path : NormalizedSourcePath) : List ImportFingerprint :=
  (batchImports.get? path).getD []

/-- What is discovered after some modules of the batch. -/
def discoveredAfter (discovered : OrderedMap NormalizedSourcePath DiscoveredSource)
    (sources : List (NormalizedSourcePath × StableSource)) :
    OrderedMap NormalizedSourcePath DiscoveredSource :=
  discovered.insertAll (sources.map fun source =>
    (source.1, ⟨source.2, importsIn batchImports source.1⟩))

end

theorem recordModule_eq_ok {source : NormalizedSourcePath × StableSource}
    (h : recordModule batchImports d source
      = (.ok d' : Except (ModuleClosureError WorkerError) _)) :
    (∀ declaration ∈ importsIn batchImports source.1,
        (resolveExplicitZryImport source.1 declaration.specifier).isSome)
      ∧ Recorded known (targetsOf source.1 (importsIn batchImports source.1))
        (edgesOf source.1 (importsIn batchImports source.1)) d d'
      ∧ d'.discovered
        = d.discovered.insert source.1 ⟨source.2, importsIn batchImports source.1⟩
      ∧ ∀ path, known path ↔ d'.discovered.get? path ≠ none ∨ batchImports.get? path ≠ none := by
  unfold recordModule at h
  split at h
  · cases h
  next imports himports =>
  have hin : importsIn batchImports source.1 = imports := by rw [importsIn, himports]; rfl
  obtain ⟨recorded, hrecorded, h⟩ := bind_eq_ok.mp h
  cases h
  obtain ⟨hresolves, hrecord, hdiscovered⟩ := recordImports_eq_ok known hknown hrecorded
  rw [hin]
  refine ⟨hresolves, ⟨hrecord.fixed, hrecord.portable, hrecord.pending, hrecord.identities,
    hrecord.fresh, hrecord.nodup, hrecord.appended, hrecord.short, hrecord.card_le⟩,
    by rw [← hdiscovered], fun path => ?_⟩
  -- a module of the batch is known before it is discovered
  rw [hknown, OrderedMap.get?_insert, hdiscovered]
  by_cases heq : path = source.1
  · simp [heq, himports]
  · simp [heq]

end

theorem recordModules_eq_ok {sources : List (NormalizedSourcePath × StableSource)}
    (h : sources.foldlM (recordModule batchImports) d
      = (.ok d' : Except (ModuleClosureError WorkerError) _))
    (hknown : ∀ path, known path ↔
      d.discovered.get? path ≠ none ∨ batchImports.get? path ≠ none) :
    (∀ source ∈ sources, ∀ declaration ∈ importsIn batchImports source.1,
        (resolveExplicitZryImport source.1 declaration.specifier).isSome)
      ∧ Recorded known
        (sources.flatMap fun source => targetsOf source.1 (importsIn batchImports source.1))
        (sources.flatMap fun source => edgesOf source.1 (importsIn batchImports source.1)) d d'
      ∧ d'.discovered = discoveredAfter batchImports d.discovered sources := by
  induction sources generalizing d with
  | nil =>
    rw [foldlM_nil, Checked.pure_eq_ok] at h
    exact ⟨nofun, h ▸ .refl, h ▸ rfl⟩
  | cons source sources ih =>
    rw [foldlM_cons, bind_eq_ok] at h
    obtain ⟨next, hnext, h⟩ := h
    obtain ⟨hresolves, hfirst, hdiscovered, hknown'⟩ := recordModule_eq_ok known hknown hnext
    obtain ⟨hrest, hlater, hdiscovered'⟩ := ih h hknown'
    rw [flatMap_cons, flatMap_cons]
    refine ⟨forall_mem_cons.mpr ⟨hresolves, hrest⟩, hfirst.trans hlater, ?_⟩
    rw [hdiscovered', hdiscovered, discoveredAfter, discoveredAfter, map_cons]
    rfl

end Success

/-! ### Errors of recording -/

section Errors

variable {timedOut : WorkerError → Prop} {known P : NormalizedSourcePath → Prop}
  {path target : NormalizedSourcePath} {d d' : Discovery} {targets : List NormalizedSourcePath}
  {edges edges' : List ResolvedEdge}
  {batchImports : OrderedMap NormalizedSourcePath (List ImportFingerprint)}

/-- Some edges are recorded for the first time. -/
def Fresh (edges : List ResolvedEdge) (d : Discovery) : Prop :=
  (∀ edge ∈ edges, edge.identity ∉ d.edgeIdentities)
    ∧ (edges.map ResolvedEdge.identity).Nodup

theorem Fresh.left (h : Fresh (edges ++ edges') d) : Fresh edges d := by
  obtain ⟨hnew, hnodup⟩ := h
  rw [map_append] at hnodup
  exact ⟨fun edge hmem => hnew edge (mem_append_left _ hmem), hnodup.of_append_left⟩

theorem Fresh.right (h : Fresh (edges ++ edges') d) (hrecorded : Recorded known targets edges d d') :
    Fresh edges' d' := by
  obtain ⟨hnew, hnodup⟩ := h
  rw [map_append, nodup_append'] at hnodup
  refine ⟨fun edge hmem hold => ?_, hnodup.2.1⟩
  rw [hrecorded.identities, Finset.mem_union, mem_toFinset] at hold
  obtain hold | hold := hold
  · exact hnew edge (mem_append_right _ hmem) hold
  · exact hnodup.2.2 hold (mem_map_of_mem hmem)

/-- The paths that are registered are of one kind. -/
def Registered (P : NormalizedSourcePath → Prop) (d : Discovery) : Prop :=
  ∀ key path, d.portablePaths.get? key = some path → key = path.portableIdentity ∧ P path

theorem Registered.after (h : Registered P d) (hrecorded : Recorded known targets edges d d')
    (htargets : ∀ target ∈ targets, P target) : Registered P d' := by
  intro key path hget
  obtain hget | ⟨hmem, heq⟩ := (hrecorded.portable key path).mp hget
  · exact h key path hget
  · exact ⟨heq, htargets path hmem⟩

theorem recordBindings_errors {specifier : String} {bindings : List BindingFingerprint}
    (hfresh : Fresh (bindings.map (bindingEdge path target specifier)) d) :
    ErrorsIn (OverBudget timedOut) (bindings.foldlM (recordBinding path target specifier) d) := by
  induction bindings generalizing d with
  | nil => exact .ok d
  | cons binding bindings ih =>
    rw [foldlM_cons]
    refine .bind (.bind (accountEdgeManifestBytes_errors _ _ _ _ _ _) fun bytes _ => ?_) fun next hnext => ?_
    · refine .ite (fun hmem => ?_) fun _ => ?_
      · exact absurd hmem (hfresh.1 _ mem_cons_self)
      · exact .ite (fun _ => .error (overBudget_budgetRejection _)) fun _ => .ok _
    · have hsplit : Fresh ([bindingEdge path target specifier binding]
          ++ bindings.map (bindingEdge path target specifier)) d := hfresh
      exact ih (hsplit.right (recordBinding_eq_ok (fun _ => True) hnext).1)

variable (hapart : ∀ path other, P path → P other →
  path.portableIdentity = other.portableIdentity → path = other)
include hapart

variable (hregistered : Registered P d)

include hregistered

theorem registerPortablePath_errors (htarget : P target) :
    ErrorsIn (OverBudget timedOut) (registerPortablePath d.portablePaths target) := by
  unfold registerPortablePath
  split
  · next existing hget =>
    obtain ⟨heq, hexisting⟩ := hregistered _ _ hget
    exact .ite (fun hne => absurd (hapart existing target hexisting htarget heq.symm) hne)
      fun _ => .ok _
  · exact .ok _

theorem recordImports_errors {imports : List ImportFingerprint}
    (htargets : ∀ target ∈ targetsOf path imports, P target) (hresolves : ∀ declaration ∈ imports,
      (resolveExplicitZryImport path declaration.specifier).isSome)
    (hfresh : Fresh (edgesOf path imports) d) :
    ErrorsIn (OverBudget timedOut) (imports.foldlM (recordImport batchImports path) d) := by
  induction imports generalizing d with
  | nil => exact .ok d
  | cons declaration imports ih =>
    obtain ⟨hfirst, hrest⟩ := forall_mem_cons.mp hresolves
    obtain ⟨target, hresolve⟩ := Option.isSome_iff_exists.mp hfirst
    have hsplit : targetsOf path (declaration :: imports)
        = targetsOf path [declaration] ++ targetsOf path imports :=
      filterMap_append (l := [declaration])
    rw [hsplit, forall_mem_append] at htargets
    have htarget : P target := htargets.1 target (by simp [targetsOf, hresolve])
    have hedges : Fresh (edgesOfImport path declaration ++ edgesOf path imports) d := hfresh
    rw [foldlM_cons]
    refine .bind ?_ fun next hnext => ?_
    · refine .bind (checkedAdd_errors _ _) fun importDeclarations _ => ?_
      refine .ite (fun _ => .error (overBudget_budgetRejection _)) fun _ => ?_
      rw [hresolve]
      refine .bind (registerPortablePath_errors hapart hregistered htarget) fun _ _ => ?_
      have hbindings := hedges.left
      rw [edgesOfImport, hresolve] at hbindings
      refine .bind (recordBindings_errors hbindings) fun next _ => ?_
      exact .ite (fun _ => .ok _) fun _ => .ok _
    · obtain ⟨-, hrecorded, -⟩ := recordImport_eq_ok _ (fun _ => Iff.rfl) hnext
      exact ih (hregistered.after hrecorded htargets.1) htargets.2 hrest (hedges.right hrecorded)

theorem recordModules_errors {sources : List (NormalizedSourcePath × StableSource)}
    (himports : ∀ source ∈ sources, ∃ imports, batchImports.get? source.1 = some imports)
    (htargets : ∀ source ∈ sources,
      ∀ target ∈ targetsOf source.1 (importsIn batchImports source.1), P target)
    (hresolves : ∀ source ∈ sources, ∀ declaration ∈ importsIn batchImports source.1,
      (resolveExplicitZryImport source.1 declaration.specifier).isSome) (hfresh : Fresh
      (sources.flatMap fun source => edgesOf source.1 (importsIn batchImports source.1)) d) :
    ErrorsIn (OverBudget timedOut) (sources.foldlM (recordModule batchImports) d) := by
  induction sources generalizing d with
  | nil => exact .ok d
  | cons source sources ih =>
    obtain ⟨⟨imports, hget⟩, himports⟩ := forall_mem_cons.mp himports
    obtain ⟨htarget, htargets⟩ := forall_mem_cons.mp htargets
    obtain ⟨hresolve, hresolves⟩ := forall_mem_cons.mp hresolves
    rw [flatMap_cons] at hfresh
    rw [foldlM_cons]
    refine .bind ?_ fun next hnext => ?_
    · have hin : importsIn batchImports source.1 = imports := by rw [importsIn, hget]; rfl
      rw [recordModule, hget]
      rw [hin] at htarget hresolve hfresh
      exact .bind (recordImports_errors hapart hregistered htarget hresolve hfresh.left)
        fun _ _ => .ok _
    · obtain ⟨-, hrecorded, -, -⟩ := recordModule_eq_ok _ (fun _ => Iff.rfl) hnext
      exact ih (hregistered.after hrecorded htarget) himports htargets hresolves
        (hfresh.right hrecorded)

end Errors

end Zryna.Driver.ModuleClosure
