import Zryna.Ir.Generic.Wire.Decoding

/-!
# The messages of closed generic programs

What a message looks like, apart from the code that writes and reads it: the formats of the raw
claims, with the ceilings of the reader. `Encoding.program_writes` says that the writer writes them.
-/

namespace Zryna.Ir.Generic.Wire

open Checked

open Layout.Generic (Digest)
open Zryna.Wire (Format Writes)
open Raw

namespace Grammar

open Zryna.Wire.Format (lane flag blob vector optional)

def span : Format UntrustedSpan :=
  (lane.on UntrustedSpan.file).andThen
    ((lane.on UntrustedSpan.start).andThen (lane.on UntrustedSpan.stop))

def ty : Format Ty where
  bytes
    | .stored id => [0] ++ laneBytes id
    | .unit => [1]
    | .borrow referent exclusive => [2] ++ (laneBytes referent ++ flag.bytes exclusive)
  children _ := 0
  Fits _ := True

def definition : Format Definition := (lane.on Definition.id).andThen (ty.on Definition.ty)

def ids : Format (List UInt32) := vector 256 lane

def edge : Format Edge := (lane.on Edge.target).andThen (ids.on Edge.arguments)

def operation : Format Operation where
  bytes
    | .boolLiteral value => [1] ++ flag.bytes value
    | .i32Literal value => [2] ++ laneBytes value.toUInt32
    | .unit => [3]
    | .copy value => [4] ++ laneBytes value
    | .i32Add left right => [5] ++ (laneBytes left ++ laneBytes right)
    | .closedGenericCall target arguments => [6] ++ (laneBytes target ++ ids.bytes arguments)
    | .sourceCall module function arguments =>
      [7] ++ (laneBytes module ++ (laneBytes function ++ ids.bytes arguments))
    | .closedEnumConstruct ty ordinal payload =>
      [8] ++ (laneBytes ty ++ (laneBytes ordinal ++ (optional lane).bytes payload))
  children
    | .closedGenericCall _ arguments | .sourceCall _ _ arguments => ids.children arguments
    | .closedEnumConstruct _ _ payload => (optional lane).children payload
    | _ => 0
  Fits
    | .closedGenericCall _ arguments | .sourceCall _ _ arguments => ids.Fits arguments
    | _ => True

def arm : Format Arm :=
  (lane.on Arm.ordinal).andThen (((optional definition).on Arm.binding).andThen (edge.on Arm.edge))

def arms : Format (List Arm) := vector 1024 arm

def terminator : Format Terminator where
  bytes
    | .return value => [1] ++ laneBytes value
    | .jump next => [2] ++ edge.bytes next
    | .branch condition yes no => [3] ++ (laneBytes condition ++ (edge.bytes yes ++ edge.bytes no))
    | .closedEnumMatch ty scrutinee mode branches => [4] ++ (laneBytes ty ++ (laneBytes scrutinee
        ++ ([Encoding.modeTag mode] ++ arms.bytes branches)))
  children
    | .return _ => 0
    | .jump next => edge.children next
    | .branch _ yes no => edge.children yes + edge.children no
    | .closedEnumMatch _ _ _ branches => arms.children branches
  Fits
    | .return _ => True
    | .jump next => edge.Fits next
    | .branch _ yes no => edge.Fits yes ∧ edge.Fits no
    | .closedEnumMatch _ _ _ branches => arms.Fits branches

def module : Format Module := (lane.on Module.id).andThen (lane.on Module.functions)

def declaration : Format Raw.Declaration :=
  (lane.on Raw.Declaration.module).andThen ((lane.on Raw.Declaration.function).andThen
    ((lane.on Raw.Declaration.parameters).andThen (span.on Raw.Declaration.span)))

def instruction : Format Instruction :=
  (definition.on Instruction.result).andThen
    ((span.on Instruction.span).andThen (operation.on Instruction.operation))

def block : Format Block :=
  (lane.on Block.id).andThen (((vector 256 definition).on Block.parameters).andThen
    (((vector 16384 instruction).on Block.instructions).andThen
      ((span.on Block.span).andThen (terminator.on Block.terminator))))

def exportName : Format String := (blob 256).on Encoding.utf8

def function : Format Function :=
  ((blob 4096).on Function.key).andThen ((span.on Function.span).andThen
    (((optional exportName).on Function.publicExport).andThen
      (((vector 256 ty).on Function.parameters).andThen ((ty.on Function.result).andThen
        ((vector 4096 block).on Function.blocks)))))

def digest : Format Digest := ⟨Subtype.val, fun _ => 0, fun _ => True⟩

def functions : Format (List Function) := vector 16384 function

/-- What follows the type keys. -/
def afterKeys : Format Program :=
  (digest.on Program.universeIdentity).andThen ((digest.on Program.linear32).andThen
    ((digest.on Program.linuxX8664).andThen (functions.on Program.functions)))

def typeKeys : Format (List (List UInt8)) := vector 65536 (blob 4096)

def domain : Format Program := ⟨fun _ => header ++ laneBytes version, fun _ => 0, fun _ => True⟩

def program : Format Program :=
  domain.andThen (((vector 4096 module).on Program.modules).andThen
    (((vector 16384 declaration).on Program.declarations).andThen
      ((typeKeys.on Program.typeKeys).andThen afterKeys)))

end Grammar

/-! ### Writing -/

namespace Encoding

open Zryna.Wire (Writer.emits_append Writer.emits_nil)

variable {w w' : Writer}

theorem bytes_eq_ok {value : List UInt8} : bytes w value = .ok w' ↔ w.Emits value 0 w' := by
  rw [bytes]
  split
  · next h =>
    refine iff_of_false nofun fun ⟨hbytes, _⟩ => ?_
    exact not_le.mpr h (hbytes ▸ w'.bytes_le)
  · rw [Except.ok.injEq, Zryna.Wire.Writer.ext_iff]
    exact and_congr eq_comm eq_comm

theorem byte_eq_ok {value : UInt8} : byte w value = .ok w' ↔ w.Emits [value] 0 w' := bytes_eq_ok

theorem u32_writes : Writes Format.lane u32 := fun _ _ _ => bytes_eq_ok

theorem lane_eq_ok {length : ℕ} {value : UInt32} :
    lane length = .ok value ↔ length < 2 ^ 32 ∧ .ofNat length = value := by
  rw [lane]
  split
  · next h => rw [Except.ok.injEq, and_iff_right h]
  · next h => exact iff_of_false nofun fun hlt => h hlt.1

/-- A count takes its list elements out of the budget. -/
theorem count_eq_ok {n : ℕ} : count w n = .ok w' ↔ w.Emits (laneBytes (.ofNat n)) n w' := by
  rw [count]
  split
  · next h =>
    refine iff_of_false nofun fun ⟨_, hchildren⟩ => ?_
    exact not_le.mpr h (hchildren ▸ w'.children_le)
  · next h =>
    have hn : n < 2 ^ 32 :=
      ((Nat.le_add_left n w.children).trans (not_lt.mp h)).trans_lt (by decide)
    simp only [bind_eq_ok, lane_eq_ok, u32_writes, exists_eq_left', and_iff_right hn]
    exact Iff.rfl

/-- The writer knows no ceiling for bytes after their length. -/
theorem blob_writes (limit : ℕ) : Writes (Format.blob limit) blob := by
  intro w value w'
  simp only [blob, bind_eq_ok, lane_eq_ok, and_assoc, exists_eq_left',
    u32_writes, bytes_eq_ok, exists_and_left, Writer.emits_append]
  refine and_iff_right_of_imp ?_
  rintro ⟨hbytes, -⟩
  have hlength := w'.bytes_le
  rw [hbytes, List.length_append, List.length_append] at hlength
  refine lt_of_le_of_lt ?_ (show maxBytes < 2 ^ 32 by decide)
  omega

/-- A count, and the list after it. -/
theorem vector_writes (limit : ℕ) {α : Type} {F : Format α}
    {write : Writer → α → Except Failure Writer} (h : Writes F write) {xs : List α} :
    (count w xs.length >>= fun w => xs.foldlM write w) = .ok w'
      ↔ w.Emits ((Format.vector limit F).bytes xs) ((Format.vector limit F).children xs) w' := by
  simp only [bind_eq_ok, count_eq_ok, h.foldlM, Writer.emits_append]
  exact Iff.rfl

/-- A count and the list after it, with more to follow. -/
theorem vector_bind (limit : ℕ) {α : Type} {F : Format α}
    {write : Writer → α → Except Failure Writer} (h : Writes F write) {xs : List α}
    {p : Writer → Prop} :
    (∃ v, count w xs.length = .ok v ∧ ∃ u, xs.foldlM write v = .ok u ∧ p u)
      ↔ ∃ u, w.Emits ((Format.vector limit F).bytes xs) ((Format.vector limit F).children xs) u
        ∧ p u := by
  simp only [← vector_writes limit h, bind_eq_ok]
  constructor
  · rintro ⟨v, hv, u, hu, hp⟩
    exact ⟨u, ⟨v, hv, hu⟩, hp⟩
  · rintro ⟨u, ⟨v, hv, hu⟩, hp⟩
    exact ⟨v, hv, u, hu, hp⟩

theorem boolean_writes : Writes Format.flag boolean := fun _ _ _ => byte_eq_ok

theorem span_writes : Writes Grammar.span span := by
  intro w value w'
  simp only [span, bind_eq_ok, u32_writes, Writer.emits_append]
  exact Iff.rfl

theorem ty_writes : Writes Grammar.ty ty := by
  intro w value w'
  cases value with
  | stored id =>
    simp only [ty, bind_eq_ok, byte_eq_ok, u32_writes, Writer.emits_append]
    exact Iff.rfl
  | unit => exact byte_eq_ok
  | borrow referent exclusive =>
    simp only [ty, bind_eq_ok, byte_eq_ok, u32_writes, boolean_writes, Writer.emits_append]
    exact Iff.rfl

theorem definition_writes : Writes Grammar.definition definition := by
  intro w value w'
  simp only [definition, bind_eq_ok, u32_writes, ty_writes, Writer.emits_append]
  exact Iff.rfl

theorem ids_writes : Writes Grammar.ids ids := fun _ _ _ => vector_writes 256 u32_writes

theorem optional_writes {α : Type} {F : Format α} {write : Writer → α → Except Failure Writer}
    (h : Writes F write) : Writes (Format.optional F) (optional write) := by
  intro w value w'
  cases value with
  | none =>
    simp only [optional, bind_eq_ok, boolean_writes, Except.ok.injEq, ← Writer.emits_nil,
      Writer.emits_append]
    exact Iff.rfl
  | some value =>
    simp only [optional, bind_eq_ok, boolean_writes, h, Writer.emits_append,
      Format.flag_children, Nat.zero_add]
    exact Iff.rfl

theorem optionalId_writes : Writes (Format.optional Format.lane) optionalId :=
  optional_writes u32_writes

theorem edge_writes : Writes Grammar.edge edge := by
  intro w value w'
  simp only [edge, bind_eq_ok, u32_writes, ids_writes, Writer.emits_append]
  exact Iff.rfl

theorem operation_writes : Writes Grammar.operation operation := by
  intro w value w'
  cases value <;>
    simp only [operation, bind_eq_ok, byte_eq_ok, u32_writes, boolean_writes, ids_writes,
      optionalId_writes, Writer.emits_append, Format.lane_children, Nat.zero_add] <;>
    exact Iff.rfl

theorem binding_writes : Writes (Format.optional Grammar.definition) binding :=
  optional_writes definition_writes

theorem arm_writes : Writes Grammar.arm arm := by
  intro w value w'
  simp only [arm, bind_eq_ok, u32_writes, binding_writes, edge_writes, Writer.emits_append]
  exact Iff.rfl

theorem terminator_writes : Writes Grammar.terminator terminator := by
  intro w value w'
  cases value with
  | «return» value =>
    simp only [terminator, bind_eq_ok, byte_eq_ok, u32_writes, Writer.emits_append]
    exact Iff.rfl
  | jump next =>
    simp only [terminator, bind_eq_ok, byte_eq_ok, edge_writes, Writer.emits_append,
      Nat.zero_add]
    exact Iff.rfl
  | branch condition yes no =>
    simp only [terminator, bind_eq_ok, byte_eq_ok, u32_writes, edge_writes,
      Writer.emits_append, Format.lane_children, Nat.zero_add]
    exact Iff.rfl
  | closedEnumMatch ty scrutinee mode arms =>
    have harms : ∀ v : Writer, (count v arms.length >>= fun v => arms.foldlM arm v) = .ok w'
        ↔ v.Emits (Grammar.arms.bytes arms) (Grammar.arms.children arms) w' :=
      fun v => vector_writes 1024 arm_writes
    simp only [bind_eq_ok] at harms
    simp only [terminator, bind_eq_ok, byte_eq_ok, u32_writes, harms, Writer.emits_append,
      Format.lane_children, Nat.zero_add]
    exact Iff.rfl

theorem module_writes : Writes Grammar.module module := by
  intro w value w'
  simp only [module, bind_eq_ok, u32_writes, Writer.emits_append]
  exact Iff.rfl

theorem declaration_writes : Writes Grammar.declaration declaration := by
  intro w value w'
  simp only [declaration, bind_eq_ok, u32_writes, span_writes, Writer.emits_append]
  exact Iff.rfl

theorem instruction_writes : Writes Grammar.instruction instruction := by
  intro w value w'
  simp only [instruction, bind_eq_ok, definition_writes, span_writes, operation_writes,
    Writer.emits_append]
  exact Iff.rfl

theorem block_writes : Writes Grammar.block block := by
  intro w value w'
  simp only [block, bind_eq_ok, u32_writes, vector_bind 256 definition_writes,
    vector_bind 16384 instruction_writes, span_writes, terminator_writes, Writer.emits_append]
  exact Iff.rfl

theorem exportName_writes : Writes Grammar.exportName exportName :=
  fun w name w' => blob_writes 256 w (utf8 name) w'

theorem publicExport_writes : Writes (Format.optional Grammar.exportName) publicExport :=
  optional_writes exportName_writes

theorem function_writes : Writes Grammar.function function := by
  intro w value w'
  have hblocks : ∀ v : Writer,
      (count v value.blocks.length >>= fun v => value.blocks.foldlM block v) = .ok w'
        ↔ v.Emits _ _ w' := fun v => vector_writes 4096 block_writes
  simp only [bind_eq_ok] at hblocks
  simp only [function, bind_eq_ok, blob_writes 4096, span_writes, publicExport_writes,
    vector_bind 256 ty_writes, ty_writes, hblocks, Writer.emits_append]
  exact Iff.rfl

theorem domain_eq_ok : domain w = .ok w' ↔ w.Emits (header ++ laneBytes version) 0 w' := by
  simp only [domain, bind_eq_ok, bytes_eq_ok, u32_writes, Writer.emits_append]
  exact Iff.rfl

theorem program_writes : Writes Grammar.program program := by
  intro w value w'
  have hfunctions : ∀ v : Writer,
      (count v value.functions.length >>= fun v => value.functions.foldlM function v) = .ok w'
        ↔ v.Emits _ _ w' := fun v => vector_writes 16384 function_writes
  simp only [bind_eq_ok] at hfunctions
  simp only [program, bind_eq_ok, domain_eq_ok, vector_bind 4096 module_writes,
    vector_bind 16384 declaration_writes, vector_bind 65536 (blob_writes 4096), bytes_eq_ok,
    hfunctions, Writer.emits_append]
  exact Iff.rfl

end Encoding

end Zryna.Ir.Generic.Wire
