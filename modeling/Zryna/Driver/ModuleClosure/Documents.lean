import Zryna.Driver.ModuleClosure.Closure
import Zryna.Foundation.Framing

/-!
# Graph documents

The bytes that a graph identity hashes. Every text is written after its length, and so are the
modules and the edges, so that the document determines the entrypoint, the modules with their
digests, and the edges.
-/

namespace Zryna.Driver.ModuleClosure

open List

open Checked (bind_eq_ok)
open Framing (Splits)
open Json (utf8Bytes)

variable {WorkerError : Type}

/-! ### Parts -/

def u32Bytes (value : ℕ) : List UInt8 := (leBytes 4 value).map UInt8.ofNat

theorem splits_u32Bytes : Splits (fun value => value < 2 ^ 32) u32Bytes := by
  refine .of_length (n := 4) (fun value _ => by rw [u32Bytes, length_map, length_leBytes])
    fun value value' h h' heq => ?_
  have hback (value : ℕ) : (u32Bytes value).map UInt8.toNat = leBytes 4 value := by
    rw [u32Bytes, map_map, map_congr_left (g := id), map_id]
    intro byte hbyte
    exact UInt8.toNat_ofNat_of_lt' (lt_of_mem_leBytes hbyte)
  have hbytes := congrArg (List.map UInt8.toNat) heq
  rw [hback, hback] at hbytes
  exact leBytes_inj h h' hbytes

/-- A text after its length. -/
def framedText (text : String) : List UInt8 :=
  u32Bytes (utf8Bytes text.toList).length ++ utf8Bytes text.toList

/-- The length of a text can be written. -/
def ShortText (text : String) : Prop := (utf8Bytes text.toList).length < 2 ^ 32

theorem splits_framedText : Splits ShortText framedText := by
  intro text text' r s h h' heq
  rw [framedText, framedText, append_assoc, append_assoc] at heq
  obtain ⟨hlength, hrest⟩ := splits_u32Bytes h h' heq
  obtain ⟨hbytes, hrest⟩ := append_inj hrest hlength
  exact ⟨String.toList_inj.mp (Json.utf8Bytes_inj hbytes), hrest⟩

def moduleBytes (module : NormalizedSourcePath × Sha256) : List UInt8 :=
  framedText module.1.asStr ++ module.2.bytes

theorem splits_moduleBytes : Splits (fun module => ShortText module.1.asStr) moduleBytes := by
  have hdigest : Splits (fun _ : Sha256 => True) Sha256.bytes :=
    .of_length (n := 32) (fun digest _ => digest.length_eq) fun digest digest' _ _ heq => by
      cases digest
      cases digest'
      cases heq
      rfl
  exact ((splits_framedText.comap NormalizedSourcePath.asStr_injective).pair hdigest).mono
    fun _ h => ⟨h, trivial⟩

def edgeBytes (identity : EdgeIdentity) : List UInt8 :=
  framedText identity.importer.asStr ++ (framedText identity.specifier
    ++ (framedText identity.imported ++ framedText identity.localName))

/-- The lengths of the texts of an edge can be written. -/
def ShortEdge (identity : EdgeIdentity) : Prop :=
  ShortText identity.importer.asStr ∧ ShortText identity.specifier ∧ ShortText identity.imported
    ∧ ShortText identity.localName

theorem splits_edgeBytes : Splits ShortEdge edgeBytes := by
  have hinj : Function.Injective fun identity : EdgeIdentity =>
      (identity.importer, identity.specifier, identity.imported, identity.localName) := by
    rintro ⟨importer, specifier, imported, localName⟩ ⟨_, _, _, _⟩ heq
    cases heq
    rfl
  exact ((splits_framedText.comap NormalizedSourcePath.asStr_injective).pair
    (splits_framedText.pair (splits_framedText.pair splits_framedText))).comap hinj

theorem length_utf8Bytes (text : String) :
    (utf8Bytes text.toList).length = utf8Length text.toList := by
  rw [utf8Bytes, length_flatMap, utf8Length]
  simp only [String.length_utf8EncodeChar]

/-! ### The document -/

/-- The bytes of an entrypoint, of modules with their digests, and of edges. -/
def graphBytes (entrypoint : NormalizedSourcePath) (modules : List (NormalizedSourcePath × Sha256))
    (edges : List EdgeIdentity) : List UInt8 :=
  graphDomain ++ u32Bytes 1 ++ (framedText entrypoint.asStr
    ++ ((u32Bytes modules.length ++ modules.flatMap moduleBytes)
      ++ (u32Bytes edges.length ++ edges.flatMap edgeBytes)))

/-- The lengths in a graph document can be written. -/
structure ShortGraph (entrypoint : NormalizedSourcePath)
    (modules : List (NormalizedSourcePath × Sha256)) (edges : List EdgeIdentity) : Prop where
  entrypoint : ShortText entrypoint.asStr
  modules : modules.length < 2 ^ 32 ∧ ∀ module ∈ modules, ShortText module.1.asStr
  edges : edges.length < 2 ^ 32 ∧ ∀ edge ∈ edges, ShortEdge edge

variable {entrypoint : NormalizedSourcePath} {document document' : List UInt8}
  {modules : List ModuleRecord} {edges : List ModuleEdge}

theorem graphBytes_inj {entrypoint' : NormalizedSourcePath}
    {modules modules' : List (NormalizedSourcePath × Sha256)} {edges edges' : List EdgeIdentity}
    (h : ShortGraph entrypoint modules edges) (h' : ShortGraph entrypoint' modules' edges')
    (heq : graphBytes entrypoint modules edges = graphBytes entrypoint' modules' edges') :
    entrypoint = entrypoint' ∧ modules = modules' ∧ edges = edges' := by
  have hsplits := (splits_framedText.comap NormalizedSourcePath.asStr_injective).pair
    ((splits_moduleBytes.counted splits_u32Bytes).pair (splits_edgeBytes.counted splits_u32Bytes))
  obtain ⟨hparts, -⟩ := hsplits (a := (entrypoint, modules, edges))
    (b := (entrypoint', modules', edges')) (r := []) (s := []) ⟨h.entrypoint, h.modules, h.edges⟩
    ⟨h'.entrypoint, h'.modules, h'.edges⟩ (by
      rw [append_nil, append_nil]
      exact append_cancel_left heq)
  cases hparts
  exact ⟨rfl, rfl, rfl⟩

/-! ### Writing -/

theorem pushU32_eq_ok {value : ℕ} :
    (pushU32 document value : Except (ModuleClosureError WorkerError) _) = .ok document' ↔
      value < 2 ^ 32 ∧ document ++ u32Bytes value = document' := by
  unfold pushU32
  split
  · next h => exact ⟨fun heq => ⟨h, Except.ok.inj heq⟩, fun heq => congrArg _ heq.2⟩
  · next h => exact iff_of_false nofun fun heq => h heq.1

theorem pushText_eq_ok {value : String} :
    (pushText document value : Except (ModuleClosureError WorkerError) _) = .ok document' ↔
      ShortText value ∧ document ++ framedText value = document' := by
  simp only [pushText, bind_eq_ok, pushU32_eq_ok, framedText, ShortText, Except.ok.injEq,
    ← append_assoc]
  constructor
  · rintro ⟨_, ⟨h, rfl⟩, heq⟩
    exact ⟨h, heq⟩
  · rintro ⟨h, heq⟩
    exact ⟨_, ⟨h, rfl⟩, heq⟩

theorem pushModule_eq_ok {module : ModuleRecord} :
    (pushModule document module : Except (ModuleClosureError WorkerError) _) = .ok document' ↔
      ShortText module.path.asStr
        ∧ document ++ moduleBytes (module.path, module.sourceSha256) = document' := by
  simp only [pushModule, bind_eq_ok, pushText_eq_ok, moduleBytes, Except.ok.injEq,
    ← append_assoc]
  constructor
  · rintro ⟨_, ⟨h, rfl⟩, heq⟩
    exact ⟨h, heq⟩
  · rintro ⟨h, heq⟩
    exact ⟨_, ⟨h, rfl⟩, heq⟩

theorem pushEdge_eq_ok {edge : ModuleEdge} :
    (pushEdge document edge : Except (ModuleClosureError WorkerError) _) = .ok document' ↔
      ShortEdge edge.identity ∧ document ++ edgeBytes edge.identity = document' := by
  simp only [pushEdge, foldlM_cons, foldlM_nil, bind_eq_ok, pushText_eq_ok, edgeBytes,
    ShortEdge, ModuleEdge.identity, Checked.pure_eq_ok, ← append_assoc]
  constructor
  · rintro ⟨_, ⟨himporter, rfl⟩, _, ⟨hspecifier, rfl⟩, _, ⟨himported, rfl⟩, _, ⟨hlocal, rfl⟩, heq⟩
    exact ⟨⟨himporter, hspecifier, himported, hlocal⟩, heq⟩
  · rintro ⟨⟨himporter, hspecifier, himported, hlocal⟩, heq⟩
    exact ⟨_, ⟨himporter, rfl⟩, _, ⟨hspecifier, rfl⟩, _, ⟨himported, rfl⟩, _, ⟨hlocal, rfl⟩, heq⟩

/-- Parts that are written one by one. -/
theorem pushAll_eq_ok {α : Type}
    (push : List UInt8 → α → Except (ModuleClosureError WorkerError) (List UInt8)) (p : α → Prop)
    (encode : α → List UInt8) (hpush : ∀ document part document',
      push document part = .ok document' ↔ p part ∧ document ++ encode part = document')
    {parts : List α} :
    parts.foldlM push document = .ok document' ↔
      (∀ part ∈ parts, p part) ∧ document ++ parts.flatMap encode = document' := by
  induction parts generalizing document with
  | nil => simp
  | cons part parts ih =>
    simp only [foldlM_cons, bind_eq_ok, hpush, ih, forall_mem_cons, flatMap_cons,
      ← append_assoc]
    constructor
    · rintro ⟨_, ⟨h, rfl⟩, hrest, heq⟩
      exact ⟨⟨h, hrest⟩, heq⟩
    · rintro ⟨⟨h, hrest⟩, heq⟩
      exact ⟨_, ⟨h, rfl⟩, hrest, heq⟩

theorem pushModules_eq_ok :
    (modules.foldlM pushModule document : Except (ModuleClosureError WorkerError) _)
      = .ok document' ↔ (∀ module ∈ modules, ShortText module.path.asStr)
        ∧ document ++ modules.flatMap (fun module =>
          moduleBytes (module.path, module.sourceSha256)) = document' := by
  rw [pushAll_eq_ok pushModule (fun module => ShortText module.path.asStr)
    (fun module => moduleBytes (module.path, module.sourceSha256)) fun _ _ _ => pushModule_eq_ok]

theorem pushEdges_eq_ok :
    (edges.foldlM pushEdge document : Except (ModuleClosureError WorkerError) _) = .ok document' ↔
      (∀ edge ∈ edges, ShortEdge edge.identity)
        ∧ document ++ edges.flatMap (fun edge => edgeBytes edge.identity) = document' := by
  rw [pushAll_eq_ok pushEdge (fun edge => ShortEdge edge.identity)
    (fun edge => edgeBytes edge.identity) fun _ _ _ => pushEdge_eq_ok]

/-- What a module record contributes to the document. -/
def ModuleRecord.content (module : ModuleRecord) : NormalizedSourcePath × Sha256 :=
  (module.path, module.sourceSha256)

theorem graphDocument_eq_ok :
    (graphDocument entrypoint modules edges : Except (ModuleClosureError WorkerError) _)
      = .ok document ↔
      ShortGraph entrypoint (modules.map ModuleRecord.content) (edges.map ModuleEdge.identity)
        ∧ graphBytes entrypoint (modules.map ModuleRecord.content) (edges.map ModuleEdge.identity)
          = document := by
  have hone : (1 : ℕ) < 2 ^ 32 := by decide
  simp only [graphDocument, bind_eq_ok, pushU32_eq_ok, pushText_eq_ok,
    pushModules_eq_ok, pushEdges_eq_ok]
  constructor
  · rintro ⟨_, ⟨-, rfl⟩, _, ⟨hentry, rfl⟩, _, ⟨hmodules, rfl⟩, _, ⟨hmodule, rfl⟩, _, ⟨hedges, rfl⟩,
      hedge, rfl⟩
    refine ⟨⟨hentry, ⟨?_, ?_⟩, ⟨?_, ?_⟩⟩, ?_⟩
    · rwa [length_map]
    · exact forall_mem_map.mpr hmodule
    · rwa [length_map]
    · exact forall_mem_map.mpr hedge
    · simp only [graphBytes, length_map, flatMap_map, ModuleRecord.content,
        append_assoc]
  · rintro ⟨⟨hentry, ⟨hmodules, hmodule⟩, ⟨hedges, hedge⟩⟩, rfl⟩
    rw [length_map] at hmodules hedges
    refine ⟨_, ⟨hone, rfl⟩, _, ⟨hentry, rfl⟩, _, ⟨hmodules, rfl⟩, _,
      ⟨fun module hmem => hmodule _ (mem_map_of_mem hmem), rfl⟩, _, ⟨hedges, rfl⟩,
      fun edge hmem => hedge _ (mem_map_of_mem hmem), ?_⟩
    simp only [graphBytes, length_map, flatMap_map, ModuleRecord.content,
      append_assoc]

end Zryna.Driver.ModuleClosure
