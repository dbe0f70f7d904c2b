import Zryna.Semantics.Instantiation.Interning

/-!
# Keys of interned instances

The key and the depth that interning computes are those the key decoder finds, for every builder
that interning can produce.
-/

namespace Zryna.Semantics.Instantiation

open Zryna.Ir.Generic List

/-- The builders that come from a new one by interning closed types over interned arguments, and
functions over as many of them as they have type parameters. -/
inductive Builds (program : CheckedProgram) : Builder → Prop
  | new {builder : Builder} (h : Builder.new program.toBodyTypes = .ok builder) :
      Builds program builder
  | type {builder builder' : Builder} {shape : TypeShape} {arguments : List ℕ}
      {spans : List (Option UntrustedSpan)} {span : Option UntrustedSpan} {id : ℕ}
      (hbuilds : Builds program builder) (hshape : ¬ shape.Open)
      (harity : program.arity shape = some arguments.length)
      (hinterned : ∀ argument ∈ arguments, argument < builder.types.length)
      (h : builder.internShape program.toBodyTypes shape arguments spans span = .ok (builder', id)) :
      Builds program builder'
  | function {builder builder' : Builder} {owner : DeclarationIdentity} {arguments : List ℕ}
      {span : Option UntrustedSpan} {id : ℕ}
      (hbuilds : Builds program builder) (hkind : owner.kind = .function)
      (harity : program.typeParameters? owner = some arguments.length)
      (hinterned : ∀ argument ∈ arguments, argument < builder.types.length)
      (h : builder.function owner arguments span = .ok (builder', id)) : Builds program builder'

variable {program : CheckedProgram} {builder : Builder}

/-- Interned indices denote closed types. -/
theorem Inventory.denotes_of_lt {bodies : BodyTypes} (hinv : Inventory bodies builder)
    {ids : List ℕ} (h : ∀ id ∈ ids, id < builder.types.length) :
    ∃ ts, List.Forall₂ (Denotes builder.types) ids ts := by
  induction ids with
  | nil => exact ⟨[], .nil⟩
  | cons id ids ih =>
    obtain ⟨hid, hids⟩ := forall_mem_cons.mp h
    obtain ⟨ts, hts⟩ := ih hids
    obtain ⟨t, ht⟩ := hinv.types id _ (getElem?_eq_getElem hid)
    exact ⟨t :: ts, .cons ⟨_, getElem?_eq_getElem hid, ht.key⟩ hts⟩

/-- The invariant holds of every builder. -/
theorem Builds.inventory (h : Builds program builder) : Inventory program.toBodyTypes builder := by
  induction h with
  | new h => exact inventory_new h
  | type _ hshape harity hinterned h ih =>
    obtain ⟨ts, hts⟩ := ih.denotes_of_lt hinterned
    obtain ⟨c, hc⟩ := Builder.exists_constructor hshape harity (program.arity_le harity)
    obtain ⟨-, hinv, -, -⟩ := internShape_spec ih hts harity hc h
    exact hinv
  | function _ hkind harity hinterned h ih =>
    obtain ⟨ts, hts⟩ := ih.denotes_of_lt hinterned
    obtain ⟨-, -, -, hinv, -, -⟩ := function_spec ih hts hkind harity
      (program.typeParameters_le _ _ harity) h
    exact hinv

/-- The key of an interned type is accepted, with the depth of the type. -/
theorem NodeOk.decode {bodies : BodyTypes} {earlier : List Node} {node : Node} {t : ClosedType}
    (h : NodeOk bodies earlier node t) :
    ∃ key, Keys.decode node.key .type = .ok key ∧ key.depth = node.depth := by
  refine ⟨Keys.decoded t.term, Keys.decode_eq_ok_iff.mpr ⟨t.term, ?_, ?_, ?_, ?_, ?_, rfl⟩, ?_⟩
  · cases t
    rfl
  · rw [ClosedType.key_term, h.key]
  · rw [h.key]
    exact h.key_le
  · rw [ClosedType.depth_term]
    exact h.depth_le
  · exact t.arraysWithin_term.mpr h.arrays
  · rw [h.depth]
    exact t.depth_term

/-- The key of an interned function is accepted, as that of an instance or of a source root. -/
theorem FunctionOk.decode {program : CheckedProgram} {types : List Node} {function : Function}
    {term : ClosedTerm} (h : FunctionOk program.toBodyTypes types function term)
    (hdenoted : ∀ id t, Denotes types id t →
      t.depth ≤ maxDepth ∧ t.ArraysWithin Keys.maxArrayLength) :
    ∃ key, Keys.decode function.key (if function.generic then .functionInstance else .sourceRoot)
      = .ok key := by
  have hmem : ∀ t ∈ term.argumentList, t.depth ≤ maxDepth ∧ t.ArraysWithin Keys.maxArrayLength :=
    fun t ht => by
      obtain ⟨id, -, hid⟩ := exists_denotes h.arguments ht
      exact hdenoted id t hid
  have hroot : term.constructor.application = false ∧ term.constructor.arrayLength = 0
      ∧ term.constructor.domain = if function.generic then .functionInstance else .sourceRoot := by
    have hcount := program.typeParameters_le _ _ h.count
    have hconstructor := h.constructor
    rw [h.generic]
    match hcase : function.arguments with
    | [] | [_] | [_, _] =>
      rw [hcase] at hconstructor
      rw [← Option.some.inj hconstructor]
      exact ⟨rfl, rfl, rfl⟩
    | _ :: _ :: _ :: _ =>
      rw [hcase] at hcount
      simp at hcount
  obtain ⟨happlication, harray, hdomain⟩ := hroot
  have hdepth : term.depth ≤ maxDepth := by
    rw [ClosedTerm.depth, happlication, if_neg Bool.false_ne_true, Nat.zero_add]
    have hfold : ∀ depths : List ℕ, (∀ depth ∈ depths, depth ≤ maxDepth) →
        depths.foldr max 0 ≤ maxDepth := by
      intro depths hdepths
      induction depths with
      | nil => exact Nat.zero_le _
      | cons depth depths ih =>
        obtain ⟨hhead, htail⟩ := forall_mem_cons.mp hdepths
        exact Nat.max_le.mpr ⟨hhead, ih htail⟩
    refine hfold _ fun depth hdepth => ?_
    obtain ⟨i, rfl⟩ := mem_ofFn.mp hdepth
    exact (hmem _ (mem_ofFn.mpr ⟨i, rfl⟩)).1
  refine ⟨_, Keys.decode_eq_ok_iff.mpr ⟨term, hdomain, h.key.symm, ?_, hdepth, ⟨?_, fun i => ?_⟩,
    rfl⟩⟩
  · rw [h.key]
    exact h.key_le
  · rw [harray]
    exact Nat.zero_le _
  · exact (hmem _ (mem_ofFn.mpr ⟨i, rfl⟩)).2

/-- Keys are a bijective codec. Exactly the encodings of closed terms within the limits are
accepted, each in its own domain and with what it encodes; distinct terms have distinct encodings;
the encoder of substituted types writes the key of each closed type within the limits and of no
other; and the keys that instantiation interns are accepted, those of types with their depth. -/
theorem keys_codec :
    (∀ bytes domain key, Keys.decode bytes domain = .ok key ↔
      ∃ term : ClosedTerm, term.constructor.domain = domain ∧ term.key = bytes
        ∧ bytes.length ≤ 4096 ∧ term.depth ≤ 64 ∧ term.ArraysWithin 1048576
        ∧ key = ⟨term.constructor.kind, term.constructor.declaration, term.children, term.depth⟩)
    ∧ (∀ t t' : ClosedTerm, t.key.length < 2 ^ 32 → t.key = t'.key → t = t')
    ∧ (∀ (term : ClosedTerm) key, term.constructor.domain = .type →
      (Keys.encodeMode term.constructor.tag term.constructor.lanes term.children false = .ok key ↔
        term.key = key ∧ key.length ≤ 4096 ∧ term.depth ≤ 64 ∧ term.ArraysWithin 1048576))
    ∧ (∀ program builder, Builds program builder →
      (∀ node ∈ builder.types, ∃ t : ClosedType, node.key = t.key ∧ node.depth = t.depth
        ∧ ∃ key, Keys.decode node.key .type = .ok key ∧ key.depth = node.depth)
      ∧ ∀ function ∈ builder.functions, ∃ key, Keys.decode function.key
        (if function.generic then .functionInstance else .sourceRoot) = .ok key) := by
  refine ⟨fun bytes domain key => ?_, fun t t' hlength h => ClosedTerm.key_injective hlength h,
    fun term key hdomain => Keys.encodeMode_eq_ok_iff hdomain,
    fun program builder hbuilds => ⟨fun node hnode => ?_, fun function hfunction => ?_⟩⟩
  · rw [Keys.decode_eq_ok_iff]
    simp only [Keys.decoded, eq_comm (b := key)]
    rfl
  · obtain ⟨id, hid⟩ := getElem?_of_mem hnode
    obtain ⟨t, ht⟩ := hbuilds.inventory.types id node hid
    exact ⟨t, ht.key, ht.depth, ht.decode⟩
  · obtain ⟨term, hterm⟩ := hbuilds.inventory.functions function hfunction
    refine hterm.decode fun id t hid => ?_
    obtain ⟨node, -, hnode⟩ := hbuilds.inventory.denoted hid
    exact ⟨hnode.depth_le, hnode.arrays⟩

/-- A project without declarations. -/
def CheckedProgram.empty : CheckedProgram where
  modules := []
  modules_lt := by decide
  data_lt := nofun
  functions_lt := nofun
  sources_lt := nofun
  typeParameters_le := by
    rintro ⟨module, kind, index⟩ count h
    cases kind <;> exact nomatch h
  sources_checked := nofun
  expressions_checked := nofun
  owners_declared := nofun
  data_sources := nofun
  calls_checked := nofun

theorem new_empty : Builder.new CheckedProgram.empty.toBodyTypes = .ok (.scalars ⟨[], []⟩) := by
  have hbounds : Bounds.new CheckedProgram.empty.toBodyTypes = .ok ⟨[], []⟩ := by
    simp [Bounds.new, spread, BodyTypes.dataIdentities, CheckedProgram.empty]
  exact new_eq_ok.mpr ⟨_, hbounds, rfl⟩

/-- The key that is interned for `Option<bool>` is accepted, with one application. -/
theorem keys_codec_option :
    ∃ key, Keys.decode [0x14, 1, 0, 0, 0, 1, 0, 0, 0, 0] .type = .ok key ∧ key.depth = 1 := by
  have hintern : ∃ builder, (Builder.scalars ⟨[], []⟩).internShape
      CheckedProgram.empty.toBodyTypes .option [0] [none] none = .ok (builder, 3) ∧ builder.types[3]?
        = some ⟨[0x14, 1, 0, 0, 0, 1, 0, 0, 0, 0], .option, [0], 1, false, [], true⟩ :=
    ⟨_, rfl, rfl⟩
  obtain ⟨builder, hintern, hnode⟩ := hintern
  have hbuilds : Builds .empty builder :=
    .type (.new new_empty) (by exact id) rfl (by decide) hintern
  obtain ⟨-, -, -, hinstances⟩ := keys_codec
  obtain ⟨-, -, -, hkey⟩ := (hinstances .empty builder hbuilds).1 _ (mem_of_getElem? hnode)
  exact hkey

end Zryna.Semantics.Instantiation
