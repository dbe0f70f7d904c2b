import Zryna.Ir.Generic.Body
import Zryna.Ir.Generic.Wire.Codec

/-!
# Accepted programs on the wire

The closed check bounds what the reader bounds: every list that it counts and every key. It does not
look at the length of an export name, of which the reader takes 256 bytes and the writer writes any
number. `codec_faithful_iff` says that this is all that is lost.
-/

namespace Zryna.Ir.Generic.Wire

open Checked List

open Layout.Generic (Digest VerifiedLayouts TypeView)
open Zryna.Wire (Format)
open Raw

variable {program : Program} {sources : SourceMap} {linear linux : VerifiedLayouts}

def Accepted (program : Program) (sources : SourceMap) (linear linux : VerifiedLayouts) : Prop :=
  ∃ inventory, Inventory.check program sources linear linux = .ok inventory
    ∧ Body.check program sources linear inventory = .ok ()

/-- The export names are within the ceiling of the reader. -/
def NamesFit (program : Program) : Prop :=
  ∀ function ∈ program.functions, ∀ name ∈ function.publicExport,
    (Encoding.utf8 name).length ≤ 256

/-- In a loop over a list with its positions every element has a round. -/
theorem round_of_mem {α σ : Type} {f : σ → α × ℕ → Except Failure σ} {xs : List α} {s s' : σ}
    (h : xs.zipIdx.foldlM f s = .ok s') {a : α} (ha : a ∈ xs) :
    ∃ index t t', f t (a, index) = .ok t' := by
  obtain ⟨index, hindex⟩ := mem_iff_getElem?.mp ha
  have hmem : (a, index) ∈ xs.zipIdx := mem_zipIdx_iff_getElem?.mpr hindex
  exact ⟨index, foldlM_mem h hmem⟩

/-! ### Bodies -/

theorem operation_fits {calls : ℕ} {operation : Operation} {r : ℕ × ℕ}
    (h : Inventory.operationLimits calls operation = .ok r) : Grammar.operation.Fits operation := by
  cases operation with
  | closedGenericCall target arguments | sourceCall module function arguments =>
    simp only [Inventory.operationLimits, bind_eq_ok, ite_error_eq_ok,
      not_lt] at h
    obtain ⟨_, -, hle, -⟩ := h
    exact ⟨hle, fun _ _ => trivial⟩
  | _ => trivial

variable {totals totals' : Inventory.Totals} {edge : Edge} {block : Block} {function : Function}
  {decoded : Keys.DecodedKey} {key : List UInt8}

theorem instruction_fits {instruction : Instruction}
    (h : Inventory.instructionLimits totals instruction = .ok totals') :
    Grammar.instruction.Fits instruction := by
  simp only [Inventory.instructionLimits, bind_eq_ok] at h
  obtain ⟨_, hoperation, -⟩ := h
  exact ⟨⟨trivial, trivial⟩, ⟨trivial, trivial, trivial⟩, operation_fits hoperation⟩

theorem edge_fits (h : edge.arguments.length ≤ 256) : Grammar.edge.Fits edge :=
  ⟨trivial, h, fun _ _ => trivial⟩

/-- A terminator whose edges and arms are within the ceilings. -/
theorem terminator_fits {terminator : Terminator}
    (hedges : ∀ edge ∈ edges terminator, edge.arguments.length ≤ 256)
    (harms : ∀ ty scrutinee mode arms, terminator = .closedEnumMatch ty scrutinee mode arms →
      arms.length ≤ 1024) : Grammar.terminator.Fits terminator := by
  cases terminator with
  | «return» value => trivial
  | jump next => exact edge_fits (hedges next (mem_singleton_self _))
  | branch condition yes no =>
    obtain ⟨hyes, hno⟩ := forall_mem_cons.mp hedges
    exact ⟨edge_fits hyes, edge_fits (hno no (mem_singleton_self _))⟩
  | closedEnumMatch ty scrutinee mode arms =>
    refine ⟨harms ty scrutinee mode arms rfl, fun arm harm => ⟨trivial, ?_, ?_⟩⟩
    · exact fun _ _ => ⟨trivial, trivial⟩
    · exact edge_fits (hedges arm.edge (mem_map_of_mem harm))

/-- A built graph has bounded edges only. -/
theorem edges_of_build {count : ℕ} {graph : Graph}
    (h : Cfg.build function sources count = .ok graph)
    (hblock : block ∈ function.blocks) (hedge : edge ∈ edges block.terminator) :
    edge.arguments.length ≤ 256 := by
  unfold Cfg.build at h
  split at h
  · cases h
  simp only [bind_eq_ok] at h
  obtain ⟨state, hstate, -⟩ := h
  obtain ⟨_, _, _, hround⟩ := round_of_mem hstate hblock
  simp only [Cfg.block, ite_error_eq_ok, bind_eq_ok] at hround
  obtain ⟨-, -, -, _, -, _, -, _, hedges, -⟩ := hround
  obtain ⟨_, _, hround⟩ := foldlM_mem hedges hedge
  simp only [Cfg.edge, ite_error_eq_ok] at hround
  exact not_lt.mp fun hlt => hround.1 (.inr (.inr hlt))

/-- A match that is accepted has as many arms as an enum has variants. -/
theorem arms_of_terminator {operand : UInt32 → Except Failure Ty}
    {ty scrutinee : UInt32} {mode : MatchMode} {arms : List Arm}
    (h : Body.terminator linear.types function operand (.closedEnumMatch ty scrutinee mode arms)
      = .ok ()) : arms.length ≤ 1024 := by
  simp only [Body.terminator, Body.variants, Body.layout, bind_eq_ok,
    ite_error_eq_ok, not_not] at h
  obtain ⟨_, -, _, -, view, ⟨view', hview, -, hsame⟩, hlength, -⟩ := h
  cases hsame
  split at hview
  · cases hview
  · next hget =>
    cases hview
    exact hlength ▸ linear.variants_le _ (mem_of_getElem? hget)

/-- The blocks of an accepted function. -/
theorem terminators_fit {inventory : Inventory}
    (h : Body.check program sources linear inventory = .ok ())
    (hfunction : function ∈ program.functions) (hblock : block ∈ function.blocks) :
    Grammar.terminator.Fits block.terminator := by
  simp only [Body.check, bind_eq_ok] at h
  obtain ⟨_, hfold, -⟩ := h
  obtain ⟨_, _, _, hround⟩ := round_of_mem hfold hfunction
  simp only [Body.function, bind_eq_ok] at hround
  obtain ⟨-, -, graph, hgraph, hblocks⟩ := hround
  obtain ⟨_, _, _, hround⟩ := round_of_mem hblocks hblock
  simp only [Body.block, bind_eq_ok] at hround
  obtain ⟨_, -, _, hterminator, -⟩ := hround
  refine terminator_fits (fun edge => edges_of_build hgraph hblock) fun _ _ _ _ heq => ?_
  rw [heq] at hterminator
  exact arms_of_terminator hterminator

theorem block_fits {state state' : Inventory.Totals × ℕ × ℕ}
    (h : Inventory.blockLimits state block = .ok state')
    (hterminator : Grammar.terminator.Fits block.terminator) : Grammar.block.Fits block := by
  simp only [Inventory.blockLimits, Inventory.add, ite_error_eq_ok, bind_eq_ok,
    not_lt] at h
  obtain ⟨hparameters, _, -, _, ⟨hinstructions, -⟩, _, -, _, hrounds, -⟩ := h
  refine ⟨trivial, ⟨hparameters, fun _ _ => ⟨trivial, trivial⟩⟩,
    ⟨le_of_add_le_right hinstructions, fun instruction hmem => ?_⟩, ⟨trivial, trivial, trivial⟩,
    hterminator⟩
  obtain ⟨_, _, hround⟩ := foldlM_mem hrounds hmem
  exact instruction_fits hround

theorem function_fits (h : Inventory.functionLimits totals function = .ok totals')
    (hkey : function.key.length ≤ 4096)
    (hname : ∀ name ∈ function.publicExport, (Encoding.utf8 name).length ≤ 256)
    (hblocks : ∀ block ∈ function.blocks, Grammar.terminator.Fits block.terminator) :
    Grammar.function.Fits function := by
  simp only [Inventory.functionLimits, ite_error_eq_ok, bind_eq_ok, not_or,
    not_lt] at h
  obtain ⟨⟨hparameters, hlength⟩, _, -, _, -, _, hrounds, -⟩ := h
  refine ⟨hkey, ⟨trivial, trivial, trivial⟩, hname, ⟨hparameters, fun _ _ => trivial⟩, trivial,
    hlength, fun block hblock => ?_⟩
  obtain ⟨_, _, hround⟩ := foldlM_mem hrounds hblock
  exact block_fits hround (hblocks block hblock)

/-! ### Keys -/

theorem length_of_decode {domain : Domain}
    (h : Keys.decode key domain = .ok decoded) : key.length ≤ 4096 := by
  obtain ⟨_, -, -, hle, -⟩ := Keys.decode_eq_ok_iff.mp h
  exact hle

theorem decode_of_checkTypeKeys (h : Inventory.checkTypeKeys program linear linux = .ok ())
    (hkey : key ∈ program.typeKeys) : ∃ decoded, Keys.decode key .type = .ok decoded := by
  simp only [Inventory.checkTypeKeys, ite_error_eq_ok, not_or, not_not] at h
  obtain ⟨⟨hlinear, hlinux⟩, hrounds⟩ := h
  obtain ⟨index, hindex⟩ := mem_iff_getElem?.mp hkey
  have hlt := (List.getElem?_eq_some_iff.mp hindex).1
  have hmem : ((key, linear.types.get ⟨index, hlinear ▸ hlt⟩),
      linux.types.get ⟨index, hlinux ▸ hlt⟩) ∈ (program.typeKeys.zip linear.types).zip linux.types := by
    refine mem_iff_getElem?.mpr ⟨index, ?_⟩
    rw [getElem?_zip_eq_some, getElem?_zip_eq_some]
    exact ⟨⟨hindex, getElem?_eq_getElem _⟩, getElem?_eq_getElem _⟩
  have hround := forM_eq_ok.mp hrounds _ hmem
  simp only [ite_error_eq_ok, bind_eq_ok] at hround
  obtain ⟨-, decoded, hdecoded, -⟩ := hround
  exact ⟨decoded, hdecoded⟩

theorem ne_nil_of_decode (h : Keys.decode key .type = .ok decoded) : key ≠ [] := by
  obtain ⟨term, -, rfl, -⟩ := Keys.decode_eq_ok_iff.mp h
  exact cons_ne_nil _ _

theorem keysHaveRoom {left : ℕ} (h : ∀ key ∈ program.typeKeys, key ≠ []) :
    Decoding.KeysHaveRoom program left := by
  refine Nat.le_add_right_of_le ?_
  generalize program.typeKeys = keys at h ⊢
  induction keys with
  | nil => exact Nat.le_refl _
  | cons key keys ih =>
    obtain ⟨hkey, hkeys⟩ := forall_mem_cons.mp h
    have hpos := length_pos_iff.mpr hkey
    have hle := ih hkeys
    rw [length_cons, flatMap_cons, length_append, Format.length_blob]
    omega

/-! ### Programs -/

theorem accepted_fits (h : Accepted program sources linear linux) (hnames : NamesFit program) :
    Grammar.program.Fits program := by
  obtain ⟨inventory, hcheck, hbody⟩ := h
  simp only [Inventory.check, bind_eq_ok, ite_error_eq_ok] at hcheck
  obtain ⟨_, hpreflight, -, _, hkeys, _, -, _, hfunctions, -⟩ := hcheck
  simp only [Inventory.preflight, bind_eq_ok, ite_error_eq_ok, not_or, not_lt]
    at hpreflight
  obtain ⟨⟨hmodules, -, hdeclarations, hcount, htypes⟩, _, hlimits, -⟩ := hpreflight
  refine ⟨trivial, ⟨hmodules, fun _ _ => ⟨trivial, trivial⟩⟩,
    ⟨hdeclarations, fun _ _ => ⟨trivial, trivial, trivial, trivial, trivial, trivial⟩⟩,
    ⟨htypes, fun key hkey => ?_⟩, trivial, trivial, trivial, hcount, fun function hmem => ?_⟩
  · obtain ⟨_, hdecoded⟩ := decode_of_checkTypeKeys hkeys hkey
    exact length_of_decode hdecoded
  · obtain ⟨_, _, hlimit⟩ := foldlM_mem hlimits hmem
    obtain ⟨_, _, _, hround⟩ := round_of_mem hfunctions hmem
    simp only [Inventory.checkFunction, ite_error_eq_ok, bind_eq_ok] at hround
    obtain ⟨-, _, hdecoded, -⟩ := hround
    exact function_fits hlimit (length_of_decode hdecoded) (hnames function hmem)
      fun block => terminators_fit hbody hmem

/-- **The codec up to export names.** What is written for an accepted program is read back as it
exactly when the export names are within the ceiling of the reader. Everything that is read is
written back as it was, and no accepted message goes on behind another one. -/
theorem codec_faithful_iff (program : Program) (bytes : List UInt8) :
    (∀ sources linear linux, Accepted program sources linear linux →
      encode program = .ok bytes → (decode bytes = .ok program ↔ NamesFit program))
    ∧ (decode bytes = .ok program → encode program = .ok bytes
      ∧ (∀ bytes', decode bytes' = .ok program → bytes = bytes')
      ∧ (∀ rest other, decode (bytes ++ rest) = .ok other → rest = [])
      ∧ ∀ front back other, bytes = front ++ back → decode front = .ok other → back = []) := by
  refine ⟨fun sources linear linux haccepted hencode => ?_, fun h =>
    ⟨(decode_eq_ok.mp h).1, fun bytes' h' => ?_, fun rest other => eq_nil_of_decode_append h, ?_⟩⟩
  · rw [decode_eq_ok, and_iff_right hencode]
    constructor
    · rintro ⟨⟨-, -, -, -, -, -, -, -, hfunctions⟩, -⟩ function hmem
      exact (hfunctions function hmem).2.2.1
    · intro hnames
      refine ⟨accepted_fits haccepted hnames, keysHaveRoom fun key hkey => ?_⟩
      obtain ⟨inventory, hcheck, -⟩ := haccepted
      simp only [Inventory.check, bind_eq_ok, ite_error_eq_ok] at hcheck
      obtain ⟨_, -, -, _, hkeys, -⟩ := hcheck
      obtain ⟨_, hdecoded⟩ := decode_of_checkTypeKeys hkeys hkey
      exact ne_nil_of_decode hdecoded
  · exact Except.ok.inj ((decode_eq_ok.mp h).1.symm.trans (decode_eq_ok.mp h').1)
  · rintro front back other rfl hfront
    exact eq_nil_of_decode_append hfront h

/-! ### A long name -/

def zeros : Digest := ⟨List.replicate 32 0, length_replicate⟩

def scalarLayouts (target : Layout.StorageTarget) : VerifiedLayouts where
  sourceMapIdentity := 0
  target := target
  universeIdentity := zeros
  fingerprint := zeros
  types := [⟨[0x00], 0, []⟩, ⟨[0x01], 0, []⟩]
  types_le := by decide
  keys_sorted := pairwise_pair.mpr (by decide)
  bool_key := rfl
  i32_key := rfl
  variants_le := by decide
  ordinals_dense := by simp
  payloads_lt := by simp

theorem length_exportFiles :
    [SourceFile.mk ⟨0, 0⟩ "src/main.zry" "f"].length ≤ maxSourceFiles := by decide

theorem id_exportFiles (i : ℕ) (file : SourceFile)
    (hfile : [SourceFile.mk ⟨0, 0⟩ "src/main.zry" "f"][i]? = some file) : file.id = ⟨0, i⟩ := by
  cases i with
  | zero =>
    cases hfile
    rfl
  | succ i => cases hfile

theorem text_exportFiles : ∀ file ∈ [SourceFile.mk ⟨0, 0⟩ "src/main.zry" "f"],
    utf8Length file.text.toList ≤ maxSourceFileBytes := by decide

def exportSources : SourceMap where
  id := 0
  files := [⟨⟨0, 0⟩, "src/main.zry", "f"⟩]
  files_le := length_exportFiles
  id_eq := id_exportFiles
  text_le := text_exportFiles

def exportProgram (name : String) : Program :=
  let span : UntrustedSpan := ⟨0, 0, 1⟩
  ⟨[⟨0, 1⟩], [⟨0, 0, 0, span⟩], [[0x00], [0x01]], zeros, zeros, zeros,
    [⟨Body.rootKey 0 0, span, some name, [], .unit,
      [⟨0, [], [⟨⟨0, .unit⟩, span, .unit⟩], span, .return 0⟩]⟩]⟩

def longName : String := String.ofList (List.replicate 257 'a')

theorem codec_long_name : ∃ bytes, Accepted (exportProgram longName) exportSources
    (scalarLayouts .linear32V1) (scalarLayouts .linuxX8664V1)
    ∧ encode (exportProgram longName) = .ok bytes
    ∧ decode bytes ≠ .ok (exportProgram longName) := by
  have hlength : (Encoding.utf8 longName).length = 257 := by decide +kernel
  refine ⟨Grammar.program.bytes (exportProgram longName), ⟨⟨0, [0]⟩, ?_, ?_⟩, ?_, fun h => ?_⟩
  · decide +kernel
  · decide +kernel
  · exact encode_eq_ok.mpr ⟨by decide +kernel, rfl, by decide +kernel, by decide +kernel⟩
  · obtain ⟨⟨-, -, -, -, -, -, -, -, hfunctions⟩, -⟩ := (decode_eq_ok.mp h).2
    have hle := (hfunctions _ (mem_singleton_self _)).2.2.1 longName rfl
    change (Encoding.utf8 longName).length ≤ 256 at hle
    omega

end Zryna.Ir.Generic.Wire
