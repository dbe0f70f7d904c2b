import Zryna.Ir.Generic.Wire.Grammar

/-!
# Reading what was written

The reader reads the formats of the grammar: each of its functions returns a value exactly when the
bytes of the value stand at the front of the input and the value is within the ceilings of the
reader. The check that the elements of a list have room follows from the length of every element,
but for type keys, where it counts a byte for every key that an empty key does not have.
-/

namespace Zryna.Ir.Generic.Wire

open Checked List

open Layout.Generic (Digest)
open Zryna.Wire (Format Reads readMany Reader.Consumes.split Reader.Consumes Reader.Consumes.trans
  Reader.Consumes.after Reader.Consumes.exists_after)
open Raw

namespace Decoding

variable {r r' : Reader}

theorem take_eq_ok {length : ℕ} {value : List UInt8} :
    take r length = .ok (value, r') ↔ value.length = length ∧ r.Consumes value 0 r' := by
  rw [take]
  split
  · next h =>
    refine iff_of_false nofun fun ⟨hlength, hrest, _⟩ => ?_
    rw [hrest, length_append] at h
    omega
  · next h =>
    rw [Except.ok.injEq, Prod.mk.injEq]
    constructor
    · rintro ⟨rfl, rfl⟩
      exact ⟨length_take_of_le (not_lt.mp h), (take_append_drop ..).symm, rfl⟩
    · rintro ⟨rfl, hrest, hchildren⟩
      rw [hrest, take_left, drop_left]
      exact ⟨rfl, Zryna.Wire.Reader.ext rfl hchildren.symm⟩

theorem byte_eq_ok {value : UInt8} : byte r = .ok (value, r') ↔ r.Consumes [value] 0 r' := by
  simp only [byte, bind_eq_ok, Prod.exists, take_eq_ok]
  constructor
  · rintro ⟨bytes, s, ⟨hlength, hs⟩, h⟩
    obtain ⟨found, rfl⟩ := length_eq_one_iff.mp hlength
    cases h
    exact hs
  · intro h
    exact ⟨[value], r', ⟨rfl, h⟩, rfl⟩

theorem u32_reads : Reads Format.lane u32 := by
  intro r value r'
  simp only [u32, bind_eq_ok, Prod.exists, take_eq_ok]
  constructor
  · rintro ⟨bytes, s, ⟨hlength, hs⟩, h⟩
    split at h
    · next found rest hfound =>
      cases h
      rw [takeLane_eq_some] at hfound
      rw [hfound, length_append, length_laneBytes] at hlength
      obtain rfl : rest = [] := eq_nil_of_length_eq_zero (by omega)
      rw [hfound, append_nil] at hs
      exact ⟨trivial, hs⟩
    · cases h
  · rintro ⟨-, h⟩
    refine ⟨laneBytes value, r', ⟨length_laneBytes value, h⟩, ?_⟩
    have hlane := takeLane_laneBytes value []
    rw [append_nil] at hlane
    rw [hlane]

theorem boolean_reads : Reads Format.flag boolean := by
  intro r value r'
  simp only [boolean, bind_eq_ok, Prod.exists, byte_eq_ok]
  constructor
  · rintro ⟨tag, s, hs, h⟩
    split at h <;> cases h <;> exact ⟨trivial, hs⟩
  · rintro ⟨-, h⟩
    cases value <;> exact ⟨_, r', h, rfl⟩

theorem array_reads : Reads Grammar.digest array := by
  intro r value r'
  simp only [array, bind_eq_ok, Prod.exists, take_eq_ok]
  constructor
  · rintro ⟨bytes, s, ⟨hlength, hs⟩, h⟩
    rw [dif_pos hlength] at h
    cases h
    exact ⟨trivial, hs⟩
  · rintro ⟨-, h⟩
    exact ⟨value.1, r', ⟨value.2, h⟩, dif_pos value.2⟩

theorem blob_reads {limit : ℕ} (hlimit : limit < 2 ^ 32) :
    Reads (Format.blob limit) (blob limit) := by
  intro r value r'
  simp only [blob, bind_eq_ok, Prod.exists, u32_reads _, ite_error_eq_ok, take_eq_ok,
    not_lt]
  constructor
  · rintro ⟨length, s, ⟨-, hs⟩, hle, hlength, ht⟩
    obtain rfl : length = .ofNat value.length := by rw [hlength, UInt32.ofNat_toNat]
    exact ⟨hlength.trans_le hle, hs.trans ht⟩
  · rintro ⟨hle, h⟩
    have h : r.Consumes (laneBytes (.ofNat value.length) ++ value) (0 + 0) r' := h
    obtain ⟨s, hs, ht⟩ := h.split
    have hlength : (UInt32.ofNat value.length).toNat = value.length :=
      UInt32.toNat_ofNat_of_lt' (lt_of_le_of_lt hle hlimit)
    exact ⟨.ofNat value.length, s, ⟨trivial, hs⟩, hlength.le.trans hle, hlength.symm, ht⟩

/-- A list is read exactly where it stands, when there is room for as many elements of the least
length. -/
theorem vector_eq_ok {α : Type} {F : Format α} {limit minimum : ℕ}
    {read : Reader → Except Failure (α × Reader)} (h : Reads F read) {xs : List α} :
    vector limit minimum read r = .ok (xs, r') ↔ (Format.vector limit F).Fits xs
      ∧ xs.length * minimum ≤ (xs.flatMap F.bytes).length + r'.rest.length
      ∧ r.Consumes ((Format.vector limit F).bytes xs) ((Format.vector limit F).children xs) r' := by
  simp only [vector, bind_eq_ok, Prod.exists, u32_reads _]
  constructor
  · rintro ⟨count, s, ⟨-, hbytes, hchildren⟩, hread⟩
    split at hread
    · cases hread
    · next hcount =>
      obtain ⟨hroom, hread⟩ := ite_error_eq_ok.mp hread
      obtain ⟨hlength, hfits, hrest, htotal⟩ := (h.many ..).mp hread
      have heq : count = .ofNat xs.length := by rw [hlength, UInt32.ofNat_toNat]
      simp only [Format.lane_children, Nat.add_zero] at hrest htotal hchildren
      rw [hrest, length_append, ← hlength, not_lt] at hroom
      refine ⟨⟨by omega, hfits⟩, hroom, ?_, ?_⟩
      · rw [hbytes, hrest, heq, ← append_assoc]
        rfl
      · rw [htotal, hchildren, ← hlength, Nat.add_assoc]
        rfl
  · rintro ⟨⟨hlimit, hfits⟩, hroom, hbytes, hchildren⟩
    have hle := r'.children_le
    simp only [Format.vector] at hchildren hbytes
    have hlength : (UInt32.ofNat xs.length).toNat = xs.length := by
      refine UInt32.toNat_ofNat_of_lt' (lt_of_le_of_lt (b := maxChildren) ?_ (by decide))
      omega
    refine ⟨.ofNat xs.length, ⟨xs.flatMap F.bytes ++ r'.rest, r.children, r.children_le⟩,
      ⟨trivial, by rw [hbytes, append_assoc]; rfl, rfl⟩, ?_⟩
    simp only [hlength]
    rw [dif_neg (by omega), if_neg (by rw [length_append]; exact not_lt.mpr hroom)]
    exact (h.many ..).mpr ⟨rfl, hfits, rfl, by rw [hchildren, Nat.add_assoc]⟩

theorem length_flatMap_ge {α : Type} {F : Format α} {minimum : ℕ}
    (h : ∀ x, minimum ≤ (F.bytes x).length) (xs : List α) :
    xs.length * minimum ≤ (xs.flatMap F.bytes).length := by
  induction xs with
  | nil => simp
  | cons x xs ih =>
    rw [length_cons, Nat.succ_mul, flatMap_cons, length_append, Nat.add_comm]
    exact Nat.add_le_add (h x) ih

/-- Where every element takes the least length, the check for room says nothing. -/
theorem vector_reads {α : Type} {F : Format α} (limit minimum : ℕ)
    {read : Reader → Except Failure (α × Reader)} (h : Reads F read)
    (hminimum : ∀ x, minimum ≤ (F.bytes x).length) :
    Reads (Format.vector limit F) (vector limit minimum read) := by
  intro r xs r'
  rw [vector_eq_ok h, and_congr_right_iff]
  intro _
  exact and_iff_right_of_imp fun _ => Nat.le_add_right_of_le (length_flatMap_ge hminimum xs)

/-! ### Least lengths -/

theorem length_ty (value : Ty) : 1 ≤ (Grammar.ty.bytes value).length := by
  cases value <;> exact Nat.succ_le_succ (Nat.zero_le _)

theorem length_definition (value : Definition) : 5 ≤ (Grammar.definition.bytes value).length := by
  have hty := length_ty value.ty
  simp only [Grammar.definition, Format.length_andThen, Format.length_on, Format.length_lane]
  omega

theorem length_span (value : UntrustedSpan) : (Grammar.span.bytes value).length = 12 := by
  simp [Grammar.span]

theorem length_edge (value : Edge) : 8 ≤ (Grammar.edge.bytes value).length := by
  have hids := Format.length_vector (F := Format.lane) 256 value.arguments
  simp only [Grammar.edge, Grammar.ids, Format.length_andThen, Format.length_on,
    Format.length_lane]
  omega

theorem length_operation (value : Operation) : 1 ≤ (Grammar.operation.bytes value).length := by
  cases value <;> exact Nat.succ_le_succ (Nat.zero_le _)

theorem length_terminator (value : Terminator) : 5 ≤ (Grammar.terminator.bytes value).length := by
  cases value with
  | «return» value => exact le_refl _
  | jump next =>
    have hedge := length_edge next
    simp only [Grammar.terminator, length_append, length_singleton]
    omega
  | branch condition yes no =>
    simp only [Grammar.terminator, length_append, length_singleton, length_laneBytes]
    omega
  | closedEnumMatch ty scrutinee mode arms =>
    simp only [Grammar.terminator, length_append, length_singleton, length_laneBytes]
    omega

theorem length_arm (value : Arm) : 10 ≤ (Grammar.arm.bytes value).length := by
  have hbinding := Format.length_optional (F := Grammar.definition) value.binding
  have hedge := length_edge value.edge
  simp only [Grammar.arm, Format.length_andThen, Format.length_on, Format.length_lane]
  omega

theorem length_module (value : Module) : 8 ≤ (Grammar.module.bytes value).length := by
  simp only [Grammar.module, Format.length_andThen, Format.length_on, Format.length_lane]
  exact le_refl _

theorem length_declaration (value : Raw.Declaration) :
    24 ≤ (Grammar.declaration.bytes value).length := by
  simp only [Grammar.declaration, Format.length_andThen, Format.length_on, Format.length_lane,
    length_span]
  exact le_refl _

theorem length_instruction (value : Instruction) :
    18 ≤ (Grammar.instruction.bytes value).length := by
  have hresult := length_definition value.result
  have hoperation := length_operation value.operation
  simp only [Grammar.instruction, Format.length_andThen, Format.length_on, length_span]
  omega

theorem length_block (value : Block) : 25 ≤ (Grammar.block.bytes value).length := by
  have hparameters := Format.length_vector (F := Grammar.definition) 256 value.parameters
  have hinstructions := Format.length_vector (F := Grammar.instruction) 16384 value.instructions
  have hterminator := length_terminator value.terminator
  simp only [Grammar.block, Format.length_andThen, Format.length_on, Format.length_lane,
    length_span]
  omega

theorem length_function (value : Function) : 26 ≤ (Grammar.function.bytes value).length := by
  have hexport := Format.length_optional (F := Grammar.exportName) value.publicExport
  have hparameters := Format.length_vector (F := Grammar.ty) 256 value.parameters
  have hresult := length_ty value.result
  have hblocks := Format.length_vector (F := Grammar.block) 4096 value.blocks
  simp only [Grammar.function, Format.length_andThen, Format.length_on, Format.length_blob,
    length_span]
  omega

/-! ### The readers -/

theorem span_reads : Reads Grammar.span span := by
  intro r value r'
  simp only [span, bind_eq_ok, Prod.exists, u32_reads _, Except.ok.injEq, Prod.mk.injEq]
  constructor
  · rintro ⟨file, s, ⟨-, hs⟩, start, t, ⟨-, ht⟩, stop, u, ⟨-, hu⟩, rfl, rfl⟩
    exact ⟨⟨trivial, trivial, trivial⟩, hs.trans (ht.trans hu)⟩
  · rintro ⟨-, h⟩
    obtain ⟨s, hs, h⟩ := h.split
    obtain ⟨t, ht, hu⟩ := h.split
    exact ⟨_, s, ⟨trivial, hs⟩, _, t, ⟨trivial, ht⟩, _, r', ⟨trivial, hu⟩, rfl, rfl⟩

theorem ty_reads : Reads Grammar.ty ty := by
  intro r value r'
  simp only [ty, bind_eq_ok, Prod.exists, byte_eq_ok]
  constructor
  · rintro ⟨tag, s, hs, h⟩
    refine ⟨trivial, ?_⟩
    split at h
    · simp only [bind_eq_ok, Prod.exists, u32_reads _] at h
      obtain ⟨id, t, ⟨-, ht⟩, ⟨⟩⟩ := h
      exact hs.after ht
    · cases h
      exact hs
    · simp only [bind_eq_ok, Prod.exists, u32_reads _, boolean_reads _] at h
      obtain ⟨referent, t, ⟨-, ht⟩, exclusive, u, ⟨-, hu⟩, ⟨⟩⟩ := h
      exact hs.after (ht.after hu)
    · cases h
  · rintro ⟨-, h⟩
    cases value with
    | stored id =>
      obtain ⟨s, hs, ht⟩ := h.exists_after
      exact ⟨0, s, hs, bind_eq_ok.mpr ⟨(id, r'), (u32_reads ..).mpr ⟨trivial, ht⟩, rfl⟩⟩
    | unit => exact ⟨1, r', h, rfl⟩
    | borrow referent exclusive =>
      obtain ⟨s, hs, h⟩ := h.exists_after
      obtain ⟨t, ht, hu⟩ := h.exists_after
      exact ⟨2, s, hs, bind_eq_ok.mpr ⟨(referent, t), (u32_reads ..).mpr ⟨trivial, ht⟩,
        bind_eq_ok.mpr ⟨(exclusive, r'), (boolean_reads ..).mpr ⟨trivial, hu⟩, rfl⟩⟩⟩

theorem definition_reads : Reads Grammar.definition definition := by
  intro r value r'
  simp only [definition, bind_eq_ok, Prod.exists, u32_reads _, ty_reads _,
    Except.ok.injEq, Prod.mk.injEq]
  constructor
  · rintro ⟨id, s, ⟨-, hs⟩, ty, t, ⟨-, ht⟩, rfl, rfl⟩
    exact ⟨⟨trivial, trivial⟩, hs.trans ht⟩
  · rintro ⟨-, h⟩
    obtain ⟨s, hs, ht⟩ := h.split
    exact ⟨_, s, ⟨trivial, hs⟩, _, r', ⟨trivial, ht⟩, rfl, rfl⟩

theorem ids_reads : Reads Grammar.ids ids :=
  vector_reads 256 4 u32_reads fun value => (Format.length_lane value).ge

theorem optional_reads {α : Type} {F : Format α} {read : Reader → Except Failure (α × Reader)}
    (h : Reads F read) : Reads (Format.optional F) (optional read) := by
  intro r value r'
  simp only [optional, bind_eq_ok, Prod.exists, boolean_reads _]
  constructor
  · rintro ⟨present, s, ⟨-, hs⟩, hread⟩
    cases present with
    | false =>
      cases hread
      exact ⟨by rintro _ ⟨⟩, hs⟩
    | true =>
      simp only [bind_eq_ok, Prod.exists, h _] at hread
      obtain ⟨value, t, ⟨hfits, ht⟩, ⟨⟩⟩ := hread
      refine ⟨fun y hy => Option.some.inj hy ▸ hfits, ?_⟩
      have hboth := hs.trans ht
      rwa [Format.flag_children, Nat.zero_add] at hboth
  · rintro ⟨hfits, hr⟩
    cases value with
    | none => exact ⟨false, r', ⟨trivial, hr⟩, rfl⟩
    | some value =>
      have hr : r.Consumes (Format.flag.bytes true ++ F.bytes value) (0 + F.children value) r' := by
        rw [Nat.zero_add]
        exact hr
      obtain ⟨s, hs, ht⟩ := hr.split
      exact ⟨true, s, ⟨trivial, hs⟩, bind_eq_ok.mpr
        ⟨(value, r'), (h ..).mpr ⟨hfits value rfl, ht⟩, rfl⟩⟩

theorem optionalId_reads : Reads (Format.optional Format.lane) optionalId := optional_reads u32_reads

theorem edge_reads : Reads Grammar.edge edge := by
  intro r value r'
  simp only [edge, bind_eq_ok, Prod.exists, u32_reads _, ids_reads _, Except.ok.injEq,
    Prod.mk.injEq]
  constructor
  · rintro ⟨target, s, ⟨-, hs⟩, arguments, t, ⟨hfits, ht⟩, rfl, rfl⟩
    exact ⟨⟨trivial, hfits⟩, hs.trans ht⟩
  · rintro ⟨⟨-, hfits⟩, h⟩
    obtain ⟨s, hs, ht⟩ := h.split
    exact ⟨_, s, ⟨trivial, hs⟩, _, r', ⟨hfits, ht⟩, rfl, rfl⟩

theorem operation_reads : Reads Grammar.operation operation := by
  intro r value r'
  simp only [operation, bind_eq_ok, Prod.exists, byte_eq_ok]
  constructor
  · rintro ⟨tag, s, hs, h⟩
    split at h
    · simp only [bind_eq_ok, Prod.exists, boolean_reads _] at h
      obtain ⟨value, t, ⟨-, ht⟩, ⟨⟩⟩ := h
      exact ⟨trivial, hs.after ht⟩
    · simp only [bind_eq_ok, Prod.exists, u32_reads _] at h
      obtain ⟨value, t, ⟨-, ht⟩, ⟨⟩⟩ := h
      exact ⟨trivial, hs.after ht⟩
    · cases h
      exact ⟨trivial, hs⟩
    · simp only [bind_eq_ok, Prod.exists, u32_reads _] at h
      obtain ⟨value, t, ⟨-, ht⟩, ⟨⟩⟩ := h
      exact ⟨trivial, hs.after ht⟩
    · simp only [bind_eq_ok, Prod.exists, u32_reads _] at h
      obtain ⟨left, t, ⟨-, ht⟩, right, u, ⟨-, hu⟩, ⟨⟩⟩ := h
      exact ⟨trivial, hs.after (ht.after hu)⟩
    · simp only [bind_eq_ok, Prod.exists, u32_reads _, ids_reads _] at h
      obtain ⟨target, t, ⟨-, ht⟩, arguments, u, ⟨hfits, hu⟩, ⟨⟩⟩ := h
      exact ⟨hfits, hs.after (ht.after hu)⟩
    · simp only [bind_eq_ok, Prod.exists, u32_reads _, ids_reads _] at h
      obtain ⟨module, t, ⟨-, ht⟩, function, u, ⟨-, hu⟩, arguments, v, ⟨hfits, hv⟩, ⟨⟩⟩ := h
      exact ⟨hfits, hs.after (ht.after (hu.after hv))⟩
    · simp only [bind_eq_ok, Prod.exists, u32_reads _, optionalId_reads _] at h
      obtain ⟨ty, t, ⟨-, ht⟩, ordinal, u, ⟨-, hu⟩, payload, v, ⟨-, hv⟩, ⟨⟩⟩ := h
      exact ⟨trivial, hs.after (ht.after (hu.after hv))⟩
    · cases h
  · rintro ⟨hfits, h⟩
    cases value with
    | boolLiteral value =>
      obtain ⟨s, hs, ht⟩ := h.exists_after
      exact ⟨1, s, hs, boolean_reads.bind trivial ht rfl⟩
    | i32Literal value =>
      obtain ⟨s, hs, ht⟩ := h.exists_after
      exact ⟨2, s, hs, u32_reads.bind trivial ht rfl⟩
    | unit => exact ⟨3, r', h, rfl⟩
    | copy value =>
      obtain ⟨s, hs, ht⟩ := h.exists_after
      exact ⟨4, s, hs, u32_reads.bind trivial ht rfl⟩
    | i32Add left right =>
      obtain ⟨s, hs, h⟩ := h.exists_after
      obtain ⟨t, ht, hu⟩ := h.exists_after
      exact ⟨5, s, hs, u32_reads.bind trivial ht (u32_reads.bind trivial hu rfl)⟩
    | closedGenericCall target arguments =>
      obtain ⟨s, hs, h⟩ := h.exists_after
      obtain ⟨t, ht, hu⟩ := h.exists_after
      exact ⟨6, s, hs, u32_reads.bind trivial ht (ids_reads.bind hfits hu rfl)⟩
    | sourceCall module function arguments =>
      obtain ⟨s, hs, h⟩ := h.exists_after
      obtain ⟨t, ht, h⟩ := h.exists_after
      obtain ⟨u, hu, hv⟩ := h.exists_after
      exact ⟨7, s, hs, u32_reads.bind trivial ht
        (u32_reads.bind trivial hu (ids_reads.bind hfits hv rfl))⟩
    | closedEnumConstruct ty ordinal payload =>
      obtain ⟨s, hs, h⟩ := h.exists_after
      obtain ⟨t, ht, h⟩ := h.exists_after
      obtain ⟨u, hu, hv⟩ := h.exists_after
      exact ⟨8, s, hs, u32_reads.bind trivial ht
        (u32_reads.bind trivial hu (optionalId_reads.bind (fun _ _ => trivial) hv rfl))⟩

theorem mode_eq_ok {r r' : Reader} {found : MatchMode} :
    mode r = .ok (found, r') ↔ r.Consumes [Encoding.modeTag found] 0 r' := by
  simp only [mode, bind_eq_ok, Prod.exists, byte_eq_ok]
  constructor
  · rintro ⟨tag, s, hs, h⟩
    split at h <;> cases h <;> exact hs
  · intro h
    cases found <;> exact ⟨_, r', h, rfl⟩

theorem binding_reads : Reads (Format.optional Grammar.definition) binding :=
  optional_reads definition_reads

theorem arm_reads : Reads Grammar.arm arm := by
  intro r value r'
  simp only [arm, bind_eq_ok, Prod.exists, u32_reads _, binding_reads _, edge_reads _,
    Except.ok.injEq, Prod.mk.injEq]
  constructor
  · rintro ⟨ordinal, s, ⟨-, hs⟩, binding, t, ⟨hbinding, ht⟩, edge, u, ⟨hedge, hu⟩, rfl, rfl⟩
    exact ⟨⟨trivial, hbinding, hedge⟩, hs.trans (ht.trans hu)⟩
  · rintro ⟨⟨-, hbinding, hedge⟩, h⟩
    obtain ⟨s, hs, h⟩ := h.split
    obtain ⟨t, ht, hu⟩ := h.split
    exact ⟨_, s, ⟨trivial, hs⟩, _, t, ⟨hbinding, ht⟩, _, r', ⟨hedge, hu⟩, rfl, rfl⟩

theorem arms_reads : Reads Grammar.arms (vector 1024 10 arm) :=
  vector_reads 1024 10 arm_reads length_arm

theorem terminator_reads : Reads Grammar.terminator terminator := by
  intro r value r'
  simp only [terminator, bind_eq_ok, Prod.exists, byte_eq_ok]
  constructor
  · rintro ⟨tag, s, hs, h⟩
    split at h
    · simp only [bind_eq_ok, Prod.exists, u32_reads _] at h
      obtain ⟨value, t, ⟨-, ht⟩, ⟨⟩⟩ := h
      exact ⟨trivial, hs.after ht⟩
    · simp only [bind_eq_ok, Prod.exists, edge_reads _] at h
      obtain ⟨next, t, ⟨hnext, ht⟩, ⟨⟩⟩ := h
      exact ⟨hnext, hs.after ht⟩
    · simp only [bind_eq_ok, Prod.exists, u32_reads _, edge_reads _] at h
      obtain ⟨condition, t, ⟨-, ht⟩, yes, u, ⟨hyes, hu⟩, no, v, ⟨hno, hv⟩, ⟨⟩⟩ := h
      exact ⟨⟨hyes, hno⟩, hs.after (ht.after (hu.trans hv))⟩
    · simp only [bind_eq_ok, Prod.exists, u32_reads _, mode_eq_ok, arms_reads _] at h
      obtain ⟨ty, t, ⟨-, ht⟩, scrutinee, u, ⟨-, hu⟩, mode, v, hv, arms, x, ⟨harms, hx⟩, ⟨⟩⟩ := h
      exact ⟨harms, hs.after (ht.after (hu.after (hv.after hx)))⟩
    · cases h
  · rintro ⟨hfits, h⟩
    cases value with
    | «return» value =>
      obtain ⟨s, hs, ht⟩ := h.exists_after
      exact ⟨1, s, hs, u32_reads.bind trivial ht rfl⟩
    | jump next =>
      obtain ⟨s, hs, ht⟩ := h.exists_after
      exact ⟨2, s, hs, edge_reads.bind hfits ht rfl⟩
    | branch condition yes no =>
      obtain ⟨s, hs, h⟩ := h.exists_after
      obtain ⟨t, ht, h⟩ := h.exists_after
      obtain ⟨u, hu, hv⟩ := h.split
      exact ⟨3, s, hs, u32_reads.bind trivial ht
        (edge_reads.bind hfits.1 hu (edge_reads.bind hfits.2 hv rfl))⟩
    | closedEnumMatch ty scrutinee mode arms =>
      obtain ⟨s, hs, h⟩ := h.exists_after
      obtain ⟨t, ht, h⟩ := h.exists_after
      obtain ⟨u, hu, h⟩ := h.exists_after
      obtain ⟨v, hv, hx⟩ := h.exists_after
      exact ⟨4, s, hs, u32_reads.bind trivial ht (u32_reads.bind trivial hu
        (bind_eq_ok.mpr ⟨(mode, v), mode_eq_ok.mpr hv, arms_reads.bind hfits hx rfl⟩))⟩

theorem module_reads : Reads Grammar.module module := by
  intro r value r'
  simp only [module, bind_eq_ok, Prod.exists, u32_reads _, Except.ok.injEq, Prod.mk.injEq]
  constructor
  · rintro ⟨id, s, ⟨-, hs⟩, functions, t, ⟨-, ht⟩, rfl, rfl⟩
    exact ⟨⟨trivial, trivial⟩, hs.trans ht⟩
  · rintro ⟨-, h⟩
    obtain ⟨s, hs, ht⟩ := h.split
    exact ⟨_, s, ⟨trivial, hs⟩, _, r', ⟨trivial, ht⟩, rfl, rfl⟩

theorem declaration_reads : Reads Grammar.declaration declaration := by
  intro r value r'
  simp only [declaration, bind_eq_ok, Prod.exists, u32_reads _, span_reads _,
    Except.ok.injEq, Prod.mk.injEq]
  constructor
  · rintro ⟨module, s, ⟨-, hs⟩, function, t, ⟨-, ht⟩, parameters, u, ⟨-, hu⟩, span, v, ⟨hspan, hv⟩,
      rfl, rfl⟩
    exact ⟨⟨trivial, trivial, trivial, hspan⟩, hs.trans (ht.trans (hu.trans hv))⟩
  · rintro ⟨⟨-, -, -, hspan⟩, h⟩
    obtain ⟨s, hs, h⟩ := h.split
    obtain ⟨t, ht, h⟩ := h.split
    obtain ⟨u, hu, hv⟩ := h.split
    exact ⟨_, s, ⟨trivial, hs⟩, _, t, ⟨trivial, ht⟩, _, u, ⟨trivial, hu⟩, _, r', ⟨hspan, hv⟩,
      rfl, rfl⟩

theorem instruction_reads : Reads Grammar.instruction instruction := by
  intro r value r'
  simp only [instruction, bind_eq_ok, Prod.exists, definition_reads _, span_reads _,
    operation_reads _, Except.ok.injEq, Prod.mk.injEq]
  constructor
  · rintro ⟨result, s, ⟨hresult, hs⟩, span, t, ⟨hspan, ht⟩, operation, u, ⟨hoperation, hu⟩, rfl,
      rfl⟩
    exact ⟨⟨hresult, hspan, hoperation⟩, hs.trans (ht.trans hu)⟩
  · rintro ⟨⟨hresult, hspan, hoperation⟩, h⟩
    obtain ⟨s, hs, h⟩ := h.split
    obtain ⟨t, ht, hu⟩ := h.split
    exact ⟨_, s, ⟨hresult, hs⟩, _, t, ⟨hspan, ht⟩, _, r', ⟨hoperation, hu⟩, rfl, rfl⟩

theorem block_reads : Reads Grammar.block block := by
  intro r value r'
  simp only [block, bind_eq_ok, Prod.exists, u32_reads _,
    vector_reads 256 5 definition_reads length_definition _,
    vector_reads 16384 18 instruction_reads length_instruction _, span_reads _, terminator_reads _,
    Except.ok.injEq, Prod.mk.injEq]
  constructor
  · rintro ⟨id, s, ⟨-, hs⟩, parameters, t, ⟨hparameters, ht⟩, instructions, u,
      ⟨hinstructions, hu⟩, span, v, ⟨hspan, hv⟩, terminator, x, ⟨hterminator, hx⟩, rfl, rfl⟩
    exact ⟨⟨trivial, hparameters, hinstructions, hspan, hterminator⟩,
      hs.trans (ht.trans (hu.trans (hv.trans hx)))⟩
  · rintro ⟨⟨-, hparameters, hinstructions, hspan, hterminator⟩, h⟩
    obtain ⟨s, hs, h⟩ := h.split
    obtain ⟨t, ht, h⟩ := h.split
    obtain ⟨u, hu, h⟩ := h.split
    obtain ⟨v, hv, hx⟩ := h.split
    exact ⟨_, s, ⟨trivial, hs⟩, _, t, ⟨hparameters, ht⟩, _, u, ⟨hinstructions, hu⟩, _, v,
      ⟨hspan, hv⟩, _, r', ⟨hterminator, hx⟩, rfl, rfl⟩

theorem fromUtf8_eq_ok {bytes : List UInt8} {name : String} :
    fromUtf8 bytes = .ok name ↔ bytes = Encoding.utf8 name := by
  rw [fromUtf8, String.fromUTF8?]
  split
  · next found h =>
    split at h
    · next hvalid =>
      rw [Except.ok.injEq, ← Option.some.injEq, ← h, Option.some.injEq]
      constructor
      · rintro rfl
        rfl
      · rintro rfl
        rfl
    · cases h
  · next h =>
    split at h
    · cases h
    · next hvalid =>
      refine iff_of_false nofun ?_
      rintro rfl
      exact hvalid name.isValidUTF8

theorem exportName_reads : Reads Grammar.exportName exportName := by
  intro r name r'
  simp only [exportName, bind_eq_ok, Prod.exists, @blob_reads 256 (by decide) _,
    fromUtf8_eq_ok, Except.ok.injEq, Prod.mk.injEq]
  constructor
  · rintro ⟨bytes, s, h, name, rfl, rfl, rfl⟩
    exact h
  · intro h
    exact ⟨_, r', h, name, rfl, rfl, rfl⟩

theorem publicExport_reads : Reads (Format.optional Grammar.exportName) publicExport :=
  optional_reads exportName_reads

theorem function_reads : Reads Grammar.function function := by
  intro r value r'
  simp only [function, bind_eq_ok, Prod.exists, @blob_reads 4096 (by decide) _,
    span_reads _, publicExport_reads _, vector_reads 256 1 ty_reads length_ty _, ty_reads _,
    vector_reads 4096 25 block_reads length_block _, Except.ok.injEq, Prod.mk.injEq]
  constructor
  · rintro ⟨key, s, ⟨hkey, hs⟩, span, t, ⟨hspan, ht⟩, name, u, ⟨hname, hu⟩, parameters, v,
      ⟨hparameters, hv⟩, result, x, ⟨hresult, hx⟩, blocks, y, ⟨hblocks, hy⟩, rfl, rfl⟩
    exact ⟨⟨hkey, hspan, hname, hparameters, hresult, hblocks⟩,
      hs.trans (ht.trans (hu.trans (hv.trans (hx.trans hy))))⟩
  · rintro ⟨⟨hkey, hspan, hname, hparameters, hresult, hblocks⟩, h⟩
    obtain ⟨s, hs, h⟩ := h.split
    obtain ⟨t, ht, h⟩ := h.split
    obtain ⟨u, hu, h⟩ := h.split
    obtain ⟨v, hv, h⟩ := h.split
    obtain ⟨x, hx, hy⟩ := h.split
    exact ⟨_, s, ⟨hkey, hs⟩, _, t, ⟨hspan, ht⟩, _, u, ⟨hname, hu⟩, _, v, ⟨hparameters, hv⟩, _, x,
      ⟨hresult, hx⟩, _, r', ⟨hblocks, hy⟩, rfl, rfl⟩

theorem domain_eq_ok : domain r = .ok r' ↔ r.Consumes (header ++ laneBytes version) 0 r' := by
  simp only [domain, bind_eq_ok, Prod.exists, take_eq_ok, u32_reads _,
    ite_error_eq_ok, not_not, Except.ok.injEq]
  constructor
  · rintro ⟨_, s, ⟨-, hs⟩, rfl, _, t, ⟨-, ht⟩, rfl, rfl⟩
    exact hs.after ht
  · intro h
    obtain ⟨s, hs, ht⟩ := h.exists_after
    exact ⟨header, s, ⟨rfl, hs⟩, rfl, version, r', ⟨trivial, ht⟩, rfl, rfl⟩

/-- The reader counts a byte for every type key before it reads them. An empty key has none, so a
list with empty keys is read only when enough follows. -/
def KeysHaveRoom (program : Program) (left : ℕ) : Prop :=
  program.typeKeys.length * 5 ≤ (program.typeKeys.flatMap (Format.blob 4096).bytes).length
    + ((Grammar.afterKeys.bytes program).length + left)

theorem program_eq_ok {value : Program} :
    program r = .ok (value, r') ↔ Grammar.program.Fits value
      ∧ KeysHaveRoom value r'.rest.length
      ∧ r.Consumes (Grammar.program.bytes value) (Grammar.program.children value) r' := by
  simp only [program, bind_eq_ok, Prod.exists, domain_eq_ok,
    vector_reads 4096 8 module_reads length_module _,
    vector_reads 16384 24 declaration_reads length_declaration _,
    vector_eq_ok (@blob_reads 4096 (by decide)), array_reads _,
    vector_reads 16384 26 function_reads length_function _, Except.ok.injEq, Prod.mk.injEq]
  constructor
  · rintro ⟨s, hs, modules, t, ⟨hmodules, ht⟩, declarations, u, ⟨hdeclarations, hu⟩, typeKeys, v,
      ⟨hkeys, hroom, hv⟩, universeIdentity, w, ⟨-, hw⟩, linear32, x, ⟨-, hx⟩, linuxX8664, y,
      ⟨-, hy⟩, functions, z, ⟨hfunctions, hz⟩, rfl, rfl⟩
    have hafter := hw.trans (hx.trans (hy.trans hz))
    refine ⟨⟨trivial, hmodules, hdeclarations, hkeys, trivial, trivial, trivial, hfunctions⟩, ?_,
      hs.trans (ht.trans (hu.trans (hv.trans hafter)))⟩
    rw [hafter.1, length_append] at hroom
    exact hroom
  · rintro ⟨⟨-, hmodules, hdeclarations, hkeys, -, -, -, hfunctions⟩, hroom, h⟩
    obtain ⟨s, hs, h⟩ := h.split
    obtain ⟨t, ht, h⟩ := h.split
    obtain ⟨u, hu, h⟩ := h.split
    obtain ⟨v, hv, hafter⟩ := h.split
    have hleft := congrArg List.length hafter.1
    rw [length_append] at hleft
    obtain ⟨w, hw, h⟩ := hafter.split
    obtain ⟨x, hx, h⟩ := h.split
    obtain ⟨y, hy, hz⟩ := h.split
    refine ⟨s, hs, _, t, ⟨hmodules, ht⟩, _, u, ⟨hdeclarations, hu⟩, _, v, ⟨hkeys, ?_, hv⟩, _, w,
      ⟨trivial, hw⟩, _, x, ⟨trivial, hx⟩, _, y, ⟨trivial, hy⟩, _, r', ⟨hfunctions, hz⟩, rfl, rfl⟩
    rw [hleft]
    exact hroom

end Decoding

/-! ### Whole messages -/

open Decoding (KeysHaveRoom)

variable {p : Program} {bytes : List UInt8}

/-- A message is written for every program within the inherited ceilings whose message is within
the ceilings of the writer. -/
theorem encode_eq_ok : encode p = .ok bytes ↔ Inventory.preflight p = .ok ()
    ∧ Grammar.program.bytes p = bytes ∧ (Grammar.program.bytes p).length ≤ maxBytes
    ∧ Grammar.program.children p ≤ maxChildren := by
  simp only [encode, Encoding.encode, bind_eq_ok, Encoding.program_writes _,
    Except.ok.injEq, Zryna.Wire.Writer.exists_new_emits]
  exact Unique.exists_iff

/-- Reading a message to its end. -/
theorem decoding_eq_ok : Decoding.decode bytes = .ok p ↔ Grammar.program.Fits p
    ∧ KeysHaveRoom p 0 ∧ Grammar.program.bytes p = bytes
    ∧ Grammar.program.children p ≤ maxChildren := by
  simp only [Decoding.decode, bind_eq_ok, Prod.exists, Decoding.program_eq_ok,
    ite_error_eq_ok, not_not, Except.ok.injEq]
  constructor
  · rintro ⟨_, r, ⟨hfits, hroom, h⟩, hempty, rfl⟩
    obtain ⟨hbytes, hchildren⟩ := Zryna.Wire.Reader.exists_new_consumes.mp ⟨r, h, hempty⟩
    rw [hempty] at hroom
    exact ⟨hfits, hroom, by rw [hbytes, append_nil], hchildren⟩
  · rintro ⟨hfits, hroom, rfl, hchildren⟩
    obtain ⟨r, h, hempty⟩ := Zryna.Wire.Reader.exists_new_consumes.mpr
      ⟨(append_nil _).symm, hchildren⟩
    exact ⟨p, r, ⟨hfits, by rw [hempty]; exact hroom, h⟩, hempty, rfl⟩

/-- A message is read as a program exactly when it is written for the program and the program is
within the ceilings of the reader. -/
theorem decode_eq_ok : decode bytes = .ok p
    ↔ encode p = .ok bytes ∧ Grammar.program.Fits p ∧ KeysHaveRoom p 0 := by
  simp only [decode, ite_error_eq_ok, bind_eq_ok, decoding_eq_ok, encode_eq_ok,
    Except.ok.injEq, not_lt]
  constructor
  · rintro ⟨hlength, _, ⟨hfits, hroom, rfl, hchildren⟩, _, hpreflight, rfl⟩
    exact ⟨⟨hpreflight, rfl, hlength, hchildren⟩, hfits, hroom⟩
  · rintro ⟨⟨hpreflight, rfl, hlength, hchildren⟩, hfits, hroom⟩
    exact ⟨hlength, p, ⟨hfits, hroom, rfl, hchildren⟩, (), hpreflight, rfl⟩

/-- What an accepted message is read as does not depend on what follows it. -/
theorem program_of_decode (h : decode bytes = .ok p) (rest : List UInt8) :
    ∃ r, Decoding.program (.new maxChildren (bytes ++ rest)) = .ok (p, r) ∧ r.rest = rest := by
  obtain ⟨hencode, hfits, hroom⟩ := decode_eq_ok.mp h
  obtain ⟨-, rfl, -, hchildren⟩ := encode_eq_ok.mp hencode
  obtain ⟨r, hr, hrest⟩ := Zryna.Wire.Reader.exists_new_consumes.mpr ⟨rfl, hchildren⟩
  refine ⟨r, Decoding.program_eq_ok.mpr ⟨hfits, ?_, hr⟩, hrest⟩
  exact le_trans hroom (Nat.add_le_add_left (Nat.add_le_add_left (Nat.zero_le _) _) _)

/-- No accepted message is the beginning of another. -/
theorem eq_nil_of_decode_append {q : Program} {rest : List UInt8} (h : decode bytes = .ok p)
    (h' : decode (bytes ++ rest) = .ok q) : rest = [] := by
  obtain ⟨r, hr, hrest⟩ := program_of_decode h rest
  obtain ⟨s, hs, hempty⟩ := program_of_decode h' []
  rw [append_nil, hr, Except.ok.injEq, Prod.mk.injEq] at hs
  rw [← hrest, hs.2, hempty]

end Zryna.Ir.Generic.Wire
