import Zryna.Package.Locks

/-!
# Update and frozen replay

The lock of a graph has a valid shape (`Exact.validateLockShape_eq_ok`), so its bytes are read back
and a frozen replay of them returns the graph. In the other direction a replay compares the lock it
reads with the lock of the graph; the bytes agree when the records of the lock were read from
objects, and a lock with a record written as an array passes the comparison too
(`replay_agrees_iff`).
-/

namespace Zryna.Package

open Checked List

open Json (Value)

variable {sha256 : List UInt8 → String} {serde : Serde}
  {provider : PackageSource → Except ResolveError PackageMaterial} {root : PackageSource}

/-! ### A root has one graph -/

theorem forall₂_unique {α β : Type} {R S : α → β → Prop} {xs ys : List α} {zs : List β}
    (hR : List.Forall₂ R xs zs) (hS : List.Forall₂ S ys zs)
    (h : ∀ x y z, R x z → S y z → x = y) : xs = ys := by
  induction hR generalizing ys with
  | nil => cases hS; rfl
  | cons hx _ ih =>
    cases hS with
    | cons hy hys => rw [h _ _ _ hx hy, ih hys]

variable {packages packages' : List ResolvedPackage}

section

variable (h : ExactPackages sha256 serde provider root packages)

include h

/-- A source has one place in the graph. -/
theorem ExactPackages.package_unique
    (h' : ExactPackages sha256 serde provider root packages') {package package' : ResolvedPackage}
    (hpackage : package ∈ packages) (hpackage' : package' ∈ packages')
    (heq : package.source = package'.source) : package = package' := by
  obtain ⟨loaded, hloaded, hinst, hname, hversion, hedges⟩ := h.authentic package hpackage
  obtain ⟨loaded', hloaded', hinst', hname', hversion', hedges'⟩ := h'.authentic package' hpackage'
  rw [← heq] at hloaded'
  obtain rfl := hloaded.unique hloaded'
  have hdependencies : package.dependencies = package'.dependencies := by
    refine forall₂_unique hedges hedges' ?_
    rintro edge edge' dependency ⟨halias, target, htarget, hsource, hid⟩
      ⟨halias', target', htarget', hsource', hid'⟩
    have htargetInst : target.inst = target'.inst := by
      obtain ⟨other, hother, hotherInst, -⟩ := h.authentic target htarget
      obtain ⟨other', hother', hotherInst', -⟩ := h'.authentic target' htarget'
      rw [hsource] at hother
      rw [hsource'] at hother'
      rw [hotherInst, hotherInst', hother.unique hother']
    exact Prod.ext (halias.trans halias'.symm) (by rw [hid, hid', htargetInst])
  cases package
  cases package'
  simp_all

theorem ExactPackages.subset
    (h' : ExactPackages sha256 serde provider root packages') : packages ⊆ packages' := by
  intro package hpackage
  obtain ⟨package', hpackage', heq⟩ :=
    (h'.lists package.source).mp ((h.lists package.source).mpr ⟨package, hpackage, rfl⟩)
  rwa [h.package_unique h' hpackage hpackage' heq.symm]

theorem ExactPackages.nodup : packages.Nodup :=
  h.sorted.imp fun hlt heq => hlt.ne (congrArg (fun package => package.inst.id) heq)

theorem ExactPackages.unique
    (h' : ExactPackages sha256 serde provider root packages') : packages = packages' := by
  have hperm : packages.Perm packages' :=
    (perm_ext_iff_of_nodup h.nodup h'.nodup).mpr fun _ => ⟨@h.subset _ _ _ _ _ _ h' _,
      @h'.subset _ _ _ _ _ _ h _⟩
  refine hperm.eq_of_pairwise (fun left right _ _ hlt hgt => ?_) h.sorted h'.sorted
  exact absurd (hlt.trans hgt) (lt_irrefl _)

end

theorem Exact.lock_unique {graph graph' : ResolvedGraph}
    (h : Exact sha256 serde provider root graph) (h' : Exact sha256 serde provider root graph') :
    graph.lock = graph'.lock := by
  obtain ⟨loaded, hloaded, hroot, hcompatibility⟩ := h.root
  obtain ⟨loaded', hloaded', hroot', hcompatibility'⟩ := h'.root
  unfold ResolvedGraph.lock
  rw [h.packages.unique h'.packages, hroot, hroot', hcompatibility, hcompatibility',
    hloaded.unique hloaded']

/-! ### The lock of a graph has a valid shape -/

theorem any_zip_tail_map {α β : Type} (f : α → β) (p : β × β → Bool) (xs : List α) :
    ((xs.map f).zip (xs.map f).tail).any p
      = (xs.zip xs.tail).any fun pair => p (f pair.1, f pair.2) := by
  rw [← map_tail, zip_map, any_map]
  rfl

/-- What a valid manifest says of compatibility and of dependencies. -/
theorem Validation.of_manifest_eq_ok {value : Manifest} (h : Validation.manifest value = .ok ()) :
    Validation.compatibility value.compatibility = .ok () ∧ value.dependencies.length ≤ 8
      ∧ Validation.ordered (value.dependencies.map Dependency.aliasName) "dependencies" = .ok ()
      ∧ ∀ dependency ∈ value.dependencies, Validation.name dependency.aliasName = .ok () := by
  unfold Validation.manifest at h
  simp only [bind_eq_ok, ite_error_bind_eq_ok, forM_eq_ok] at h
  obtain ⟨-, ⟨⟩, -, ⟨⟩, -, ⟨⟩, -, ⟨⟩, hcompatibility, -, hcount, ⟨⟩, -, ⟨⟩, hordered, ⟨⟩, -, ⟨⟩, -,
    hdependencies⟩ := h
  refine ⟨hcompatibility, Nat.not_lt.mp hcount, hordered, fun dependency hdependency => ?_⟩
  have hvalid := hdependencies dependency hdependency
  unfold Validation.dependency at hvalid
  simp only [bind_eq_ok] at hvalid
  obtain ⟨⟨⟩, halias, -⟩ := hvalid
  exact halias

section Shape

variable (hsha256 : ∀ bytes, Validation.isDigest (sha256 bytes) = true)
include hsha256

theorem Authentic.isDigest {source : PackageSource} {loaded : Loaded}
    (h : Authentic sha256 serde provider source loaded) :
    Validation.isDigest loaded.inst.id = true
      ∧ Validation.isDigest loaded.inst.sourceSha256 = true := by
  obtain ⟨material, -, -, hfiles⟩ := h.material
  unfold Validation.authenticateFiles at hfiles
  dsimp only at hfiles
  rw [ite_error_eq_ok, ite_error_eq_ok, Except.ok.injEq] at hfiles
  rw [h.id_eq, ← hfiles.2.2]
  exact ⟨hsha256 _, hsha256 _⟩

theorem ExactPackages.lockPackage_eq_ok {packages : List ResolvedPackage}
    (h : ExactPackages sha256 serde provider root packages) {package : ResolvedPackage}
    (hpackage : package ∈ packages) :
    lockPackage ⟨package.inst.id, package.inst.sourceSha256,
      package.dependencies.map fun edge => ⟨edge.1, edge.2⟩⟩ = .ok () := by
  obtain ⟨loaded, hloaded, hinst, -, -, hedges⟩ := h.authentic package hpackage
  obtain ⟨-, hcount, hordered, hnames⟩ := Validation.of_manifest_eq_ok hloaded.valid
  obtain ⟨hid, hsource⟩ := hloaded.isDigest hsha256
  have haliases : package.dependencies.map Prod.fst
      = loaded.manifest.dependencies.map Dependency.aliasName :=
    map_eq_of_forall₂ (fun _ _ hedge => hedge.1) hedges
  unfold lockPackage
  simp only [ite_error_bind_eq_ok, not_or, not_not, forM_eq_ok, hinst]
  refine ⟨⟨hid, hsource⟩, ?_, ?_, fun edge hedge => ?_⟩
  · rw [length_map, hedges.length_eq]
    omega
  · unfold Validation.ordered at hordered
    rw [← haliases, ite_error_eq_ok, any_zip_tail_map] at hordered
    rw [any_zip_tail_map]
    exact hordered.1
  · obtain ⟨pair, hpair, rfl⟩ := mem_map.mp hedge
    obtain ⟨dependency, hdependency, halias, target, htarget, -, hid⟩ := exists_right hedges hpair
    obtain ⟨other, hother, hotherInst, -⟩ := h.authentic target htarget
    unfold lockEdge
    simp only [bind_eq_ok, ite_error_eq_ok, not_not]
    refine ⟨(), halias ▸ hnames dependency hdependency, ?_, rfl⟩
    rw [hid, hotherInst]
    exact (hother.isDigest hsha256).1

theorem Exact.validateLockShape_eq_ok (hroot : Resolvable sha256 serde provider root)
    {graph : ResolvedGraph} (h : Exact sha256 serde provider root graph) :
    validateLockShape graph.lock = .ok () := by
  obtain ⟨loaded, hloaded, hgraphRoot, hcompatibility⟩ := h.root
  obtain ⟨hvalid, -⟩ := Validation.of_manifest_eq_ok hloaded.valid
  obtain ⟨rootPackage, hrootPackage, -⟩ := h.packages.exists_root hloaded
  have hcount : graph.packages.length ≤ 16 := by
    obtain ⟨sources, hsources, hcard⟩ := hroot.bounded
    rw [← length_map ResolvedPackage.source, ← toFinset_card_of_nodup h.packages.once]
    refine (Finset.card_le_card fun source hsource => ?_).trans hcard
    obtain ⟨package, hpackage, rfl⟩ := mem_map.mp (mem_toFinset.mp hsource)
    exact (hsources _).mpr ((h.packages.lists _).mpr ⟨package, hpackage, rfl⟩)
  unfold validateLockShape ResolvedGraph.lock lockOf
  simp only [bind_eq_ok, ite_error_bind_eq_ok, not_or, not_not,
    forM_eq_ok, length_map, map_eq_nil_iff]
  refine ⟨⟨trivial, ?_⟩, (), hcompatibility ▸ hvalid, ⟨ne_nil_of_mem hrootPackage, ?_⟩, ?_, ?_⟩
  · rw [hgraphRoot]
    exact (hloaded.isDigest hsha256).1
  · omega
  · rw [any_zip_tail_map]
    simp only [any_eq_true, not_exists, not_and, decide_eq_true_eq, ge_iff_le, not_le]
    exact fun pair hpair => rel_of_mem_zip_tail h.packages.sorted hpair
  · intro package hpackage
    obtain ⟨resolved, hresolved, rfl⟩ := mem_map.mp hpackage
    exact h.packages.lockPackage_eq_ok hsha256 hresolved

end Shape

/-! ### Replay -/

/-- A replay is an update, once the lock it is given is the lock of the graph. -/
theorem resolve_frozen_eq_ok {input : List UInt8} {graph : ResolvedGraph} :
    resolve sha256 serde provider root (.frozen input) = .ok graph ↔
      resolve sha256 serde provider root .update = .ok graph
      ∧ parse serde serde.lock input = .ok graph.lock
      ∧ validateLockShape graph.lock = .ok () := by
  have hfrozen : (∃ frozen, frozenLock serde (.frozen input) = .ok frozen
      ∧ ∀ lock ∈ frozen, lock = graph.lock) ↔ parse serde serde.lock input = .ok graph.lock
        ∧ validateLockShape graph.lock = .ok () := by
    simp only [frozenLock, bind_eq_ok, Except.ok.injEq]
    constructor
    · rintro ⟨_, ⟨lock, hparse, ⟨⟩, hshape, rfl⟩, hlock⟩
      obtain rfl := hlock lock rfl
      exact ⟨hparse, hshape⟩
    · rintro ⟨hparse, hshape⟩
      exact ⟨_, ⟨_, hparse, (), hshape, rfl⟩, fun lock hlock => (Option.some.inj hlock).symm⟩
  rw [resolve_eq_ok, resolve_eq_ok, hfrozen]
  constructor
  · rintro ⟨hsource, hlock, hrest⟩
    exact ⟨⟨hsource, exists_frozenLock_update, hrest⟩, hlock⟩
  · rintro ⟨⟨hsource, -, hrest⟩, hlock⟩
    exact ⟨hsource, hlock, hrest⟩

theorem lockBytes_eq {graph : ResolvedGraph} {mode : LockMode}
    (h : resolve sha256 serde provider root mode = .ok graph) :
    graph.lockBytes = encode graph.lock.toValue := by
  obtain ⟨-, -, -, hbytes, -⟩ := resolve_eq_ok.mp h
  exact hbytes

/-- Every spelling of the lock of a graph replays the graph. -/
theorem resolve_frozen_of_spelled (hsha256 : ∀ bytes, Validation.isDigest (sha256 bytes) = true)
    (hserde : ReadsLocks serde) (hdigest : DigestInjective sha256 serde provider root)
    {graph : ResolvedGraph} (h : resolve sha256 serde provider root .update = .ok graph)
    {value : Value} (hvalue : Lock.Spelled True value graph.lock) :
    resolve sha256 serde provider root (.frozen (encode value)) = .ok graph := by
  obtain ⟨hresolvable, hexact⟩ := resolvable_of_resolve hdigest h
  have hshape := hexact.validateLockShape_eq_ok hsha256 hresolvable
  exact resolve_frozen_eq_ok.mpr ⟨h, parse_of_spelled hserde hvalue hshape, hshape⟩

section

variable (sha256 : List UInt8 → String) (serde : Serde)
  (provider : PackageSource → Except ResolveError PackageMaterial) (root : PackageSource)
  (input : List UInt8)

/-- Update and replay agree: the lock of an update replays the same graph, and the bytes that a
replay accepts are the lock of the graph, which an update returns as well. -/
def ReplayAgrees : Prop :=
  (∀ graph, resolve sha256 serde provider root .update = .ok graph →
    resolve sha256 serde provider root (.frozen graph.lockBytes) = .ok graph)
  ∧ ∀ graph, resolve sha256 serde provider root (.frozen input) = .ok graph →
    input = graph.lockBytes ∧ resolve sha256 serde provider root .update = .ok graph

/-- The bytes are the lock of the root's graph with some record written as an array. -/
def Respelled : Prop :=
  Resolvable sha256 serde provider root ∧ ∃ graph, Exact sha256 serde provider root graph
    ∧ ∃ value, input = encode value ∧ Lock.Spelled True value graph.lock
      ∧ ¬Lock.Spelled False value graph.lock

end

/-- **Update and replay agree unless a record is respelled.** The lock of every update replays the
same graph. The bytes that a replay accepts are the lock of the graph it returns, except where they
spell that lock with some record as an array of its fields. -/
theorem replay_agrees_iff (sha256 : List UInt8 → String) (serde : Serde)
    (provider : PackageSource → Except ResolveError PackageMaterial) (root : PackageSource)
    (hsha256 : ∀ bytes, Validation.isDigest (sha256 bytes) = true) (hserde : ReadsLocks serde)
    (hdigest : DigestInjective sha256 serde provider root) (input : List UInt8) :
    ReplayAgrees sha256 serde provider root input ↔
      ¬Respelled sha256 serde provider root input := by
  constructor
  · rintro ⟨-, hreplay⟩ ⟨hresolvable, graph, hexact, value, rfl, hvalue, hnamed⟩
    obtain ⟨graph', hgraph'⟩ := resolve_of_resolvable hdigest hresolvable
    have hexact' := (resolvable_of_resolve hdigest hgraph').2
    rw [hexact.lock_unique hexact'] at hvalue hnamed
    have hfrozen := resolve_frozen_of_spelled hsha256 hserde hdigest hgraph' hvalue
    have hbytes := (hreplay graph' hfrozen).1
    rw [lockBytes_eq hgraph'] at hbytes
    -- equal bytes are the bytes of one value
    have hshape := hexact'.validateLockShape_eq_ok hsha256 hresolvable
    have hwritten : Lock.Spelled False graph'.lock.toValue graph'.lock :=
      Lock.spelled_toValue graph'.lock
    have heq := encode_inj (hvalue.fits hshape).wellFormed (hwritten.fits hshape).wellFormed hbytes
    exact hnamed (heq ▸ hwritten)
  · intro hnot
    refine ⟨fun graph hgraph => ?_, fun graph hgraph => ?_⟩
    · rw [lockBytes_eq hgraph]
      exact resolve_frozen_of_spelled hsha256 hserde hdigest hgraph
        (Lock.spelled_toValue graph.lock)
    · obtain ⟨hupdate, hparse, hshape⟩ := resolve_frozen_eq_ok.mp hgraph
      refine ⟨?_, hupdate⟩
      obtain ⟨hresolvable, hexact⟩ := resolvable_of_resolve hdigest hupdate
      obtain ⟨-, -, value, -, hencode, hlock⟩ := parse_eq_ok.mp hparse
      have hvalue := (hserde.lock value graph.lock).mp hlock
      by_contra hne
      refine hnot ⟨hresolvable, graph, hexact, value, hencode.symm, hvalue, fun hnamed => hne ?_⟩
      rw [lockBytes_eq hupdate, ← hencode, Lock.eq_toValue_of_spelled hnamed]

/-! ### The lock of an application and its library -/

open Classical in
/-- A reader of locks that accepts what spells one. -/
noncomputable def readLock (value : Value) : Option Lock :=
  if h : ∃ lock, Lock.Spelled True value lock then some h.choose else none

theorem readLock_eq_some {value : Value} {lock : Lock} :
    readLock value = some lock ↔ Lock.Spelled True value lock := by
  unfold readLock
  constructor
  · intro h
    split at h
    · next hexists => exact Option.some.inj h ▸ hexists.choose_spec
    · cases h
  · intro h
    have hexists : ∃ lock, Lock.Spelled True value lock := ⟨lock, h⟩
    rw [dif_pos hexists, hexists.choose_spec.unique h]

theorem readsLocks_canonical : ReadsLocks (canonicalSerde readLock) where
  fromSlice := fun _ _ h => canonicalSerde_fromSlice h.wellFormed
  lock := fun _ _ => readLock_eq_some

theorem isDigest_ofList {digits : List Char} (h : (utf8Length digits = 64
    && digits.all Validation.isHexDigit) = true) : Validation.isDigest (.ofList digits) = true := by
  rwa [Validation.isDigest, String.toList_ofList]

theorem isDigest_sampleSha256 (bytes : List UInt8) :
    Validation.isDigest (sampleSha256 bytes) = true := by
  unfold sampleSha256
  split
  · exact isDigest_ofList rfl
  split
  · exact isDigest_ofList rfl
  split
  · exact isDigest_ofList rfl
  split
  · exact isDigest_ofList rfl
  split
  · exact isDigest_ofList rfl
  split
  · exact isDigest_ofList rfl
  · exact isDigest_ofList rfl

theorem replay_agrees_sample : ReplayAgrees sampleSha256 (canonicalSerde readLock) sampleProvider
    sampleApp sampleGraph.lockBytes := by
  refine (replay_agrees_iff sampleSha256 (canonicalSerde readLock) sampleProvider sampleApp
    isDigest_sampleSha256 readsLocks_canonical digestInjective_sample sampleGraph.lockBytes).mpr ?_
  rintro ⟨-, graph, hexact, value, hbytes, hvalue, hnamed⟩
  have hlock := hexact.lock_unique (resolvable_of_resolve digestInjective_sample resolve_sample).2
  rw [show sampleGraph.lockBytes = encode sampleGraph.lock.toValue from rfl, ← hlock] at hbytes
  have hwritten : Lock.Spelled False graph.lock.toValue graph.lock := Lock.spelled_toValue graph.lock
  exact hnamed (encode_inj hwritten.wellFormed hvalue.wellFormed hbytes ▸ hwritten)

/-- The lock of the application with its outermost record written as an array. -/
def respelledLock : Value :=
  .array [.string "zryna.lock.v1",
    .string "5dcc500d8b2d70c8d9addc4df7ce3fecb544221876e94be3acd9a371e1ba1201",
    sampleCompatibility.toValue, .array [
      .object [("dependencies", .array [.object [("alias", .string "math"), ("package",
          .string "d4dfc80e240decc81623409f6490cf00ff64b391474fca30b783867f6e51dae2")]]),
        ("id", .string "5dcc500d8b2d70c8d9addc4df7ce3fecb544221876e94be3acd9a371e1ba1201"),
        ("sourceSha256",
          .string "63d9bf42df56111c2d3a3d8de309dbf96248bb1eb4c2e3b8cf490a8317bfe7d6")],
      .object [("dependencies", .array []),
        ("id", .string "d4dfc80e240decc81623409f6490cf00ff64b391474fca30b783867f6e51dae2"),
        ("sourceSha256",
          .string "a25e46491196207f75fc27f4f084595de3683a10a7b95eacd4061489346d6691")]]]

/-- A replay accepts the respelled lock, whose bytes are not those of the lock. -/
theorem replay_respelledLock : ¬ReplayAgrees sampleSha256 (canonicalSerde readLock) sampleProvider
    sampleApp (encode respelledLock) := by
  rintro ⟨-, hreplay⟩
  have hspelled : Lock.Spelled True respelledLock sampleGraph.lock :=
    .array trivial (.object _) (.cons (LockPackage.spelled_toValue ⟨_, _, [⟨_, _⟩]⟩)
      (.cons (LockPackage.spelled_toValue ⟨_, _, []⟩) .nil))
  have hfrozen := resolve_frozen_of_spelled isDigest_sampleSha256 readsLocks_canonical
    digestInjective_sample resolve_sample hspelled
  -- one starts as an array, the other as an object
  have hhead := congrArg List.head? (hreplay sampleGraph hfrozen).1
  exact absurd hhead (by decide)

end Zryna.Package
