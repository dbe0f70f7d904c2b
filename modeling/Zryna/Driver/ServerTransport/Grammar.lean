import Mathlib.Data.List.Pairwise
import Zryna.Driver.ServerTransport.Framing

/-!
# The grammar of requests

`Request` is the grammar of what `read` accepts, field by field. A field line is admitted against
the names before it (`Admitted`), and `admits_iff` turns a run of `fieldLine` into conditions on all
fields at once.

`BodyEnd` is where a recipient that follows the general rules of message framing may find the end of
the body: with its own choice of line ends, any content length, and any end at all behind a transfer
coding.
-/

namespace Zryna.Driver.ServerTransport

open HeaderText Checked List

structure Field where
  name : List UInt8
  value : List UInt8
deriving DecidableEq

def Field.line (field : Field) : List UInt8 := field.name ++ colon :: field.value

def Field.trimmed (field : Field) : List UInt8 := trim (· = space) field.value

def Field.named (field : Field) (name : String) : Bool := eqIgnoreCase field.name (ascii name)

def requestLine (method path : List UInt8) : List UInt8 :=
  method ++ space :: (path ++ space :: ascii "HTTP/1.1")

/-- Decimal digits without leading zeros. -/
structure Canonical (digits : List UInt8) : Prop where
  ne_nil : digits ≠ []
  all_isDigit : digits.all isDigit = true
  leading : 1 < digits.length → digits.head? ≠ some 0x30

/-- A method, a path and fields that are accepted, and the length that they declare. -/
structure Head (config : Config) (method path : List UInt8) (fields : List Field) (length : ℕ) :
    Prop where
  method : method = ascii "GET" ∨ method = ascii "POST"
  slash : path.head? = some 0x2f
  path_le : path.length ≤ 256
  path_bytes : path.all pathByte = true
  count : fields.length ≤ 32
  names : ∀ field ∈ fields, field.name ≠ [] ∧ field.name.all nameByte = true
  values : ∀ field ∈ fields, field.value.all valueByte = true
  distinct : fields.Pairwise fun left right => eqIgnoreCase left.name right.name = false
  host : ∃ field ∈ fields, field.named "host" = true ∧ field.trimmed = config.address
  close : ∃ field ∈ fields, field.named "connection" = true
    ∧ eqIgnoreCase field.trimmed (ascii "close") = true
  declared : ∃ field ∈ fields, field.named "content-length" = true ∧ Canonical field.trimmed
    ∧ decimal field.trimmed = length
  length_le : length ≤ config.bodyBytes
  allowed : ∀ field ∈ fields, ∀ name ∈ forbidden, eqIgnoreCase field.name name = false

/-- A header block that fits and a body of the length that it declares. -/
def Request (config : Config) (stream method path body : List UInt8) : Prop :=
  ∃ fields, stream = block (requestLine method path :: fields.map Field.line) ++ body
    ∧ (block (requestLine method path :: fields.map Field.line)).length ≤ config.headerBytes
    ∧ Head config method path fields body.length

/-! ### One field -/

/-- A field that is admitted behind others with these names. -/
structure Admitted (config : Config) (names : List (List UInt8)) (field : Field) : Prop where
  name : field.name ≠ [] ∧ field.name.all nameByte = true
  value : field.value.all valueByte = true
  room : names.length ≠ 32
  fresh : ∀ existing ∈ names, eqIgnoreCase existing field.name = false
  host : field.named "host" = true → field.trimmed = config.address
  length : field.named "content-length" = true → Canonical field.trimmed
    ∧ field.trimmed.length ≤ 10 ∧ decimal field.trimmed ≤ config.bodyBytes
  close : field.named "connection" = true → eqIgnoreCase field.trimmed (ascii "close") = true
  allowed : ∀ name ∈ forbidden, eqIgnoreCase field.name name = false

/-- The state behind one more field. -/
def Fields.add (fields : Fields) (field : Field) : Fields where
  names := fields.names ++ [field.name]
  length := if field.named "content-length" then some (decimal field.trimmed) else fields.length
  host := fields.host || field.named "host"
  close := fields.close || field.named "connection"

/-- A name does not match two that differ. -/
theorem named_ne {name left right : List UInt8} (h : eqIgnoreCase name left = true)
    (hne : eqIgnoreCase left right = false) : eqIgnoreCase name right = false := by
  rw [← Bool.not_eq_true] at hne ⊢
  exact fun h' => hne (eqIgnoreCase.trans (eqIgnoreCase.symm h) h')

variable {known : String} {config : Config} {byte : UInt8} {method path bytes body : List UInt8}
  {room : ℕ}

/-- Fields with different names do not both match a name. -/
theorem named_ne' {left right : Field} (h : left.named known = true)
    (hne : eqIgnoreCase left.name right.name = false) : right.named known = false := by
  rw [← Bool.not_eq_true] at hne ⊢
  exact fun h' => hne (eqIgnoreCase.trans h (eqIgnoreCase.symm h'))

theorem canonical_iff {value : List UInt8} :
    (value.isEmpty || decide (value.length > 10) || !value.all isDigit
      || (decide (value.length > 1) && decide (value.head? = some 0x30))) = false
    ↔ Canonical value ∧ value.length ≤ 10 := by
  simp only [Bool.or_eq_false_iff, Bool.and_eq_false_imp, decide_eq_false_iff_not,
    decide_eq_true_eq, isEmpty_eq_false_iff, Bool.not_eq_false', not_lt, gt_iff_lt]
  constructor
  · rintro ⟨⟨⟨hne, hle⟩, hdigits⟩, hleading⟩
    exact ⟨⟨hne, hdigits, hleading⟩, hle⟩
  · rintro ⟨⟨hne, hdigits, hleading⟩, hle⟩
    exact ⟨⟨⟨hne, hle⟩, hdigits⟩, hleading⟩

theorem colon_notMem {name : List UInt8} (h : name.all nameByte = true) : colon ∉ name :=
  fun hmem => absurd (all_eq_true.mp h colon hmem) (by decide)

/-- The names that the transport looks for are told apart. -/
theorem forbidden_of_named {name : List UInt8}
    (hknown : forbidden.all fun other => !eqIgnoreCase (ascii known) other)
    (h : eqIgnoreCase name (ascii known) = true) :
    ∀ other ∈ forbidden, eqIgnoreCase name other = false := by
  intro other hmem
  have hother := all_eq_true.mp hknown other hmem
  rw [Bool.not_eq_true'] at hother
  exact named_ne h hother

theorem fieldLine_sound {fields fields' : Fields} {line : List UInt8}
    (h : fieldLine config fields line = .ok fields') :
    ∃ field, line = field.line ∧ Admitted config fields.names field
      ∧ fields' = fields.add field := by
  rw [fieldLine] at h
  split at h
  · cases h
  next name value hsplit =>
  rw [ite_error_eq_ok, ite_error_eq_ok, ite_error_eq_ok] at h
  obtain ⟨hbytes, hroom, hfresh, h⟩ := h
  simp only [Bool.not_eq_true, Bool.or_eq_false_iff, isEmpty_eq_false_iff,
    Bool.not_eq_false'] at hbytes
  obtain ⟨⟨hne, hname⟩, hvalue⟩ := hbytes
  rw [Bool.not_eq_true, any_eq_false] at hfresh
  have hfresh' : ∀ existing ∈ fields.names, eqIgnoreCase existing name = false :=
    fun existing hmem => (Bool.not_eq_true _).mp (hfresh existing hmem)
  refine ⟨⟨name, value⟩, (splitOnce_eq_some.mp hsplit).1, ?_⟩
  dsimp only at h
  split_ifs at h with hhost haddress hlength hcanonical hoverflow hlarge hclose hvalue' hforbidden
  · cases h
    have hlength : eqIgnoreCase name (ascii "content-length") = false := named_ne hhost (by decide)
    have hclose : eqIgnoreCase name (ascii "connection") = false := named_ne hhost (by decide)
    refine ⟨⟨⟨hne, hname⟩, hvalue, hroom, hfresh', fun _ => not_not.mp haddress,
      fun h => absurd (hlength.symm.trans h) Bool.false_ne_true,
      fun h => absurd (hclose.symm.trans h) Bool.false_ne_true, forbidden_of_named (by decide) hhost⟩, ?_⟩
    simp [Fields.add, Field.named, hhost, hlength, hclose]
  · cases h
    rw [Bool.not_eq_true] at hhost hcanonical
    have hclose : eqIgnoreCase name (ascii "connection") = false := named_ne hlength (by decide)
    obtain ⟨hcanonical, hle⟩ := canonical_iff.mp hcanonical
    refine ⟨⟨⟨hne, hname⟩, hvalue, hroom, hfresh', fun h => absurd (hhost.symm.trans h) Bool.false_ne_true,
      fun _ => ⟨hcanonical, hle, Nat.le_of_not_lt hlarge⟩, fun h => absurd (hclose.symm.trans h) Bool.false_ne_true,
      forbidden_of_named (by decide) hlength⟩, ?_⟩
    simp only [Fields.add, Field.named, hhost, hlength, hclose, Bool.or_false, if_true]
    rfl
  · cases h
    rw [Bool.not_eq_true] at hhost hlength
    rw [Bool.not_eq_true, Bool.not_eq_false'] at hvalue'
    refine ⟨⟨⟨hne, hname⟩, hvalue, hroom, hfresh', fun h => absurd (hhost.symm.trans h) Bool.false_ne_true,
      fun h => absurd (hlength.symm.trans h) Bool.false_ne_true, fun _ => hvalue',
      forbidden_of_named (by decide) hclose⟩, ?_⟩
    simp [Fields.add, Field.named, hhost, hlength, hclose]
  · cases h
    rw [Bool.not_eq_true] at hhost hlength hclose
    rw [Bool.not_eq_true, any_eq_false] at hforbidden
    refine ⟨⟨⟨hne, hname⟩, hvalue, hroom, hfresh', fun h => absurd (hhost.symm.trans h) Bool.false_ne_true,
      fun h => absurd (hlength.symm.trans h) Bool.false_ne_true, fun h => absurd (hclose.symm.trans h) Bool.false_ne_true,
      fun other hmem => (Bool.not_eq_true _).mp (hforbidden other hmem)⟩, ?_⟩
    simp [Fields.add, Field.named, hhost, hlength, hclose]

theorem fieldLine_complete {fields : Fields} {field : Field}
    (h : Admitted config fields.names field) :
    fieldLine config fields field.line = .ok (fields.add field) := by
  obtain ⟨⟨hne, hname⟩, hvalue, hroom, hfresh, hhost, hlength, hclose, hallowed⟩ := h
  obtain ⟨name, value⟩ := field
  have hsplit : splitOnce colon (Field.line ⟨name, value⟩) = some (name, value) :=
    splitOnce_eq_some.mpr ⟨rfl, colon_notMem hname⟩
  have hbytes : (name.isEmpty || !name.all nameByte || !value.all valueByte) = false := by
    rw [isEmpty_eq_false_iff.mpr hne, hname, hvalue]
    rfl
  have hany : (fields.names.any fun existing => eqIgnoreCase existing name) = false :=
    any_eq_false.mpr fun existing hmem => (Bool.not_eq_true _).mpr (hfresh existing hmem)
  have hforbidden : (forbidden.any fun other => eqIgnoreCase name other) = false :=
    any_eq_false.mpr fun other hmem => (Bool.not_eq_true _).mpr (hallowed other hmem)
  rw [fieldLine, hsplit]
  dsimp only
  rw [hbytes, if_neg Bool.false_ne_true, if_neg hroom, hany, if_neg Bool.false_ne_true]
  by_cases hh : eqIgnoreCase name (ascii "host") = true
  · have hl : eqIgnoreCase name (ascii "content-length") = false := named_ne hh (by decide)
    have hc : eqIgnoreCase name (ascii "connection") = false := named_ne hh (by decide)
    have haddress : trim (· = space) value = config.address := hhost hh
    rw [if_pos hh, if_neg (not_not.mpr haddress)]
    simp [Fields.add, Field.named, hh, hl, hc]
  by_cases hl : eqIgnoreCase name (ascii "content-length") = true
  · have hc : eqIgnoreCase name (ascii "connection") = false := named_ne hl (by decide)
    obtain ⟨hcanonical, hle, hmax⟩ := hlength hl
    have hmax' : decimal (trim (· = space) value) ≤ config.bodyBytes := hmax
    have hsmall : ¬decimal (trim (· = space) value) ≥ 2 ^ 64 := by
      have := config.bodyBytes_le
      omega
    have hdigits := canonical_iff.mpr ⟨hcanonical, hle⟩
    rw [Field.trimmed] at hdigits
    rw [if_neg hh, if_pos hl, hdigits, if_neg Bool.false_ne_true, if_neg hsmall,
      if_neg hmax'.not_gt]
    rw [Bool.not_eq_true] at hh
    simp [Fields.add, Field.named, Field.trimmed, hh, hl, hc]
  by_cases hc : eqIgnoreCase name (ascii "connection") = true
  · have hvalue' : eqIgnoreCase (trim (· = space) value) (ascii "close") = true := hclose hc
    rw [if_neg hh, if_neg hl, if_pos hc, hvalue', Bool.not_true, if_neg Bool.false_ne_true]
    rw [Bool.not_eq_true] at hh hl
    simp [Fields.add, Field.named, hh, hl, hc]
  · rw [if_neg hh, if_neg hl, if_neg hc, hforbidden, if_neg Bool.false_ne_true]
    rw [Bool.not_eq_true] at hh hl hc
    simp [Fields.add, Field.named, hh, hl, hc]

/-! ### All fields -/

/-- Fields that are admitted one after the other. -/
def Admits (config : Config) : List (List UInt8) → List Field → Prop
  | _, [] => True
  | names, field :: fields =>
    Admitted config names field ∧ Admits config (names ++ [field.name]) fields

theorem foldlM_fieldLine {lines : List (List UInt8)} {state state' : Fields} :
    lines.foldlM (fieldLine config) state = .ok state' ↔
      ∃ fields, lines = fields.map Field.line ∧ Admits config state.names fields
        ∧ state' = fields.foldl Fields.add state := by
  induction lines generalizing state with
  | nil =>
    constructor
    · intro h
      exact ⟨[], rfl, trivial, (Except.ok.inj h).symm⟩
    · rintro ⟨_ | ⟨field, fields⟩, hlines, -, rfl⟩
      · rfl
      · cases hlines
  | cons line lines ih =>
    rw [foldlM_cons, bind_eq_ok]
    constructor
    · rintro ⟨state'', hline, h⟩
      obtain ⟨field, rfl, hfield, rfl⟩ := fieldLine_sound hline
      obtain ⟨fields, rfl, hfields, rfl⟩ := ih.mp h
      exact ⟨field :: fields, rfl, ⟨hfield, hfields⟩, rfl⟩
    · rintro ⟨_ | ⟨field, fields⟩, hlines, hadmits, rfl⟩
      · cases hlines
      · obtain ⟨rfl, rfl⟩ := List.cons.inj hlines
        exact ⟨state.add field, fieldLine_complete hadmits.1, ih.mpr ⟨fields, rfl, hadmits.2, rfl⟩⟩

/-- Conditions on one field that do not depend on the names before it. -/
structure Field.Fits (config : Config) (field : Field) : Prop where
  name : field.name ≠ [] ∧ field.name.all nameByte = true
  value : field.value.all valueByte = true
  host : field.named "host" = true → field.trimmed = config.address
  length : field.named "content-length" = true → Canonical field.trimmed
    ∧ field.trimmed.length ≤ 10 ∧ decimal field.trimmed ≤ config.bodyBytes
  close : field.named "connection" = true → eqIgnoreCase field.trimmed (ascii "close") = true
  allowed : ∀ name ∈ forbidden, eqIgnoreCase field.name name = false

variable {names : List (List UInt8)} {fields : List Field}

theorem admitted_iff {field : Field} :
    Admitted config names field ↔ field.Fits config ∧ names.length ≠ 32
      ∧ ∀ existing ∈ names, eqIgnoreCase existing field.name = false :=
  ⟨fun h => ⟨⟨h.name, h.value, h.host, h.length, h.close, h.allowed⟩, h.room, h.fresh⟩,
    fun h => ⟨h.1.name, h.1.value, h.2.1, h.2.2, h.1.host, h.1.length, h.1.close, h.1.allowed⟩⟩

theorem admits_iff (hnames : names.length ≤ 32) : Admits config names fields ↔
      (∀ field ∈ fields, field.Fits config) ∧ names.length + fields.length ≤ 32
        ∧ (∀ field ∈ fields, ∀ existing ∈ names, eqIgnoreCase existing field.name = false)
        ∧ fields.Pairwise fun left right => eqIgnoreCase left.name right.name = false := by
  induction fields generalizing names with
  | nil => simp [Admits, hnames]
  | cons field fields ih =>
    rw [Admits, admitted_iff, forall_mem_cons, forall_mem_cons, pairwise_cons,
      length_cons]
    have hlength : (names ++ [field.name]).length = names.length + 1 := length_append
    constructor
    · rintro ⟨⟨hfits, hroom, hfresh⟩, hrest⟩
      obtain ⟨hall, hcount, hbehind, hdistinct⟩ := (ih (by omega)).mp hrest
      refine ⟨⟨hfits, hall⟩, by omega, ⟨hfresh, fun other hmem existing hexisting => ?_⟩,
        fun other hmem => ?_, hdistinct⟩
      · exact hbehind other hmem existing (mem_append_left _ hexisting)
      · exact hbehind other hmem field.name (mem_append_right _ (mem_singleton_self _))
    · rintro ⟨⟨hfits, hall⟩, hcount, ⟨hfresh, hbehind⟩, hfirst, hdistinct⟩
      refine ⟨⟨hfits, by omega, hfresh⟩, (ih (by omega)).mpr ⟨hall, by omega, ?_, hdistinct⟩⟩
      intro other hmem existing hexisting
      rcases mem_append.mp hexisting with hexisting | hexisting
      · exact hbehind other hmem existing hexisting
      · rw [mem_singleton.mp hexisting]
        exact hfirst other hmem

theorem host_foldl (fields : List Field) (state : Fields) :
    (fields.foldl Fields.add state).host = (state.host || fields.any (Field.named · "host")) := by
  induction fields generalizing state with
  | nil => exact (Bool.or_false _).symm
  | cons field fields ih =>
    rw [foldl_cons, ih, any_cons, ← Bool.or_assoc]
    rfl

theorem close_foldl (fields : List Field) (state : Fields) :
    (fields.foldl Fields.add state).close
      = (state.close || fields.any (Field.named · "connection")) := by
  induction fields generalizing state with
  | nil => exact (Bool.or_false _).symm
  | cons field fields ih =>
    rw [foldl_cons, ih, any_cons, ← Bool.or_assoc]
    rfl

theorem length_foldl {state : Fields}
    (h : fields.Pairwise fun left right => eqIgnoreCase left.name right.name = false) :
    (∀ field ∈ fields, field.named "content-length" = true →
      (fields.foldl Fields.add state).length = some (decimal field.trimmed))
    ∧ ((∀ field ∈ fields, field.named "content-length" = false) →
      (fields.foldl Fields.add state).length = state.length) := by
  induction fields generalizing state with
  | nil => exact ⟨nofun, fun _ => rfl⟩
  | cons field fields ih =>
    obtain ⟨hfirst, hrest⟩ := pairwise_cons.mp h
    obtain ⟨hsome, hnone⟩ := @ih (state.add field) hrest
    rw [foldl_cons]
    constructor
    · intro other hmem hother
      rcases mem_cons.mp hmem with rfl | hmem
      · rw [hnone fun field hfield => ?_]
        · exact if_pos hother
        · exact named_ne' hother (hfirst field hfield)
      · exact hsome other hmem hother
    · intro hall
      rw [forall_mem_cons] at hall
      rw [hnone hall.2]
      exact if_neg (by rw [hall.1]; exact Bool.false_ne_true)

/-! ### The header block -/

theorem valueByte_of_nameByte (h : nameByte byte = true) : valueByte byte = true := by
  simp only [nameByte, isDigit, valueByte, Bool.or_eq_true, Bool.and_eq_true, decide_eq_true_eq,
    UInt8.le_iff_toNat_le, UInt8.reduceToNat] at h ⊢
  rcases h with ((h | h) | h) | rfl
  · omega
  · omega
  · omega
  · decide

theorem valueByte_of_pathByte (h : pathByte byte = true) : valueByte byte = true := by
  simp only [pathByte, valueByte, Bool.and_eq_true, decide_eq_true_eq,
    UInt8.le_iff_toNat_le, UInt8.reduceToNat] at h ⊢
  omega

theorem plain_of_valueByte {line : List UInt8} (hne : line ≠ [])
    (h : ∀ byte ∈ line, valueByte byte = true) : Plain line :=
  ⟨hne, fun hmem => absurd (h cr hmem) (by decide), fun hmem => absurd (h lf hmem) (by decide)⟩

theorem Head.lines {length : ℕ} (h : Head config method path fields length) :
    ∀ line ∈ requestLine method path :: fields.map Field.line,
      line ≠ [] ∧ ∀ byte ∈ line, valueByte byte = true := by
  have hmethod : method ≠ [] ∧ ∀ byte ∈ method, valueByte byte = true := by
    rcases h.method with rfl | rfl <;>
      exact ⟨by decide, all_eq_true.mp (by decide)⟩
  refine forall_mem_cons.mpr ⟨⟨?_, fun byte hmem => ?_⟩, fun line hline => ?_⟩
  · exact append_ne_nil_of_left_ne_nil hmethod.1 _
  · rcases mem_append.mp hmem with hmem | hmem
    · exact hmethod.2 byte hmem
    rcases mem_cons.mp hmem with rfl | hmem
    · decide
    rcases mem_append.mp hmem with hmem | hmem
    · exact valueByte_of_pathByte (all_eq_true.mp h.path_bytes byte hmem)
    · have : (space :: ascii "HTTP/1.1").all valueByte = true := by decide
      exact all_eq_true.mp this byte hmem
  · obtain ⟨field, hfield, rfl⟩ := mem_map.mp hline
    obtain ⟨hne, hname⟩ := h.names field hfield
    refine ⟨append_ne_nil_of_left_ne_nil hne _, fun byte hmem => ?_⟩
    rcases mem_append.mp hmem with hmem | hmem
    · exact valueByte_of_nameByte (all_eq_true.mp hname byte hmem)
    rcases mem_cons.mp hmem with rfl | hmem
    · decide
    · exact all_eq_true.mp (h.values field hfield) byte hmem

theorem Head.plain {length : ℕ} (h : Head config method path fields length) :
    ∀ line ∈ requestLine method path :: fields.map Field.line, Plain line :=
  fun line hline => plain_of_valueByte (h.lines line hline).1 (h.lines line hline).2

theorem ascii_block {lines : List (List UInt8)}
    (h : ∀ line ∈ lines, ∀ byte ∈ line, valueByte byte = true) :
    ∀ byte ∈ block lines, byte ≤ 0x7f := by
  have hcrlf : ∀ byte ∈ crlf, byte ≤ 0x7f :=
    forall_mem_cons.mpr ⟨by decide, forall_mem_singleton.mpr (by decide)⟩
  intro byte hmem
  rcases mem_append.mp hmem with hmem | hmem
  · obtain ⟨line, hline, hmem⟩ := mem_flatMap.mp hmem
    rcases mem_append.mp hmem with hmem | hmem
    · have hvalue := h line hline byte hmem
      rw [valueByte, Bool.and_eq_true, decide_eq_true_eq, decide_eq_true_eq] at hvalue
      exact UInt8.le_trans hvalue.2 (by decide)
    · exact hcrlf byte hmem
  · exact hcrlf byte hmem

theorem splitOn_requestLine (hmethod : space ∉ method) (hpath : space ∉ path) :
    (requestLine method path).splitOn space = [method, path, ascii "HTTP/1.1"] := by
  rw [requestLine, splitOn_append_cons_self_of_not_mem hmethod,
    splitOn_append_cons_self_of_not_mem hpath,
    splitOn_eq_singleton (by decide)]

theorem eq_requestLine {request version : List UInt8}
    (h : request.splitOn space = [method, path, version]) (hversion : version = ascii "HTTP/1.1") :
    request = requestLine method path := by
  have heq := @intercalate_splitOn _ request _ _ space
  rw [h, hversion, intercalate_cons_cons, intercalate_cons_cons,
    intercalate_singleton] at heq
  rw [← heq, requestLine]
  simp only [append_assoc, singleton_append]

/-- Canonical digits of a bounded number are few. -/
theorem pow_le_foldl (digits : List UInt8) (value : ℕ) :
    value * 10 ^ digits.length
      ≤ digits.foldl (fun value digit => 10 * value + (digit.toNat - 0x30)) value := by
  induction digits generalizing value with
  | nil => simp
  | cons digit digits ih =>
    calc
      value * 10 ^ (digits.length + 1) = 10 * value * 10 ^ digits.length := by
        rw [Nat.pow_succ, Nat.mul_comm (10 ^ _), ← Nat.mul_assoc, Nat.mul_comm value]
      _ ≤ (10 * value + (digit.toNat - 0x30)) * 10 ^ digits.length :=
        Nat.mul_le_mul_right _ (Nat.le_add_right _ _)
      _ ≤ _ := ih _

theorem Canonical.length_le {digits : List UInt8} (h : Canonical digits)
    (hmax : decimal digits ≤ 65536) : digits.length ≤ 10 := by
  obtain ⟨hne, hdigits, hleading⟩ := h
  obtain ⟨first, rest, rfl⟩ := exists_cons_of_ne_nil hne
  by_contra hlong
  have hfirst : first ≠ 0x30 := fun heq => hleading (by omega) (congrArg some heq)
  have hdigit := all_eq_true.mp hdigits first mem_cons_self
  simp only [isDigit, Bool.and_eq_true, decide_eq_true_eq, UInt8.le_iff_toNat_le,
    UInt8.reduceToNat] at hdigit
  have hne' : first.toNat ≠ 0x30 := fun heq => hfirst (UInt8.toNat_inj.mp heq)
  have hpow : 10 ^ 10 ≤ 10 ^ rest.length :=
    Nat.pow_le_pow_right (by decide) (by rw [length_cons] at hlong; omega)
  have hvalue : 1 * 10 ^ rest.length ≤ decimal (first :: rest) := by
    rw [decimal, foldl_cons, Nat.mul_zero, Nat.zero_add]
    exact (Nat.mul_le_mul_right _ (by omega)).trans (pow_le_foldl rest _)
  omega

/-- At most one field has a name. -/
theorem Head.unique {length : ℕ} (h : Head config method path fields length) {field other : Field}
    (hfield : field ∈ fields) (hother : other ∈ fields)
    (hnamed : field.named known = true) (hnamed' : other.named known = true) : field = other := by
  have hsymm : Std.Symm fun left right : Field => eqIgnoreCase left.name right.name = false :=
    ⟨fun left right hne => by
      rw [← Bool.not_eq_true] at hne ⊢
      exact fun h => hne (eqIgnoreCase.symm h)⟩
  by_contra hne
  have hdistinct := h.distinct.forall hfield hother hne
  exact absurd (hnamed'.symm.trans (named_ne' hnamed hdistinct)) (by decide)

theorem Head.fits {length : ℕ}
    (h : Head config method path fields length) : ∀ field ∈ fields, field.Fits config := by
  intro field hfield
  refine ⟨h.names field hfield, h.values field hfield, fun hnamed => ?_, fun hnamed => ?_,
    fun hnamed => ?_, h.allowed field hfield⟩
  · obtain ⟨other, hother, hnamed', hvalue⟩ := h.host
    rwa [h.unique hfield hother hnamed hnamed']
  · obtain ⟨other, hother, hnamed', hcanonical, hvalue⟩ := h.declared
    rw [h.unique hfield hother hnamed hnamed', hvalue]
    refine ⟨hcanonical, hcanonical.length_le ?_, h.length_le⟩
    rw [hvalue]
    exact h.length_le.trans config.bodyBytes_le
  · obtain ⟨other, hother, hnamed', hvalue⟩ := h.close
    rwa [h.unique hfield hother hnamed hnamed']

theorem parse_sound {length : ℕ} (h : parse bytes config = .ok (method, path, length)) :
    ∃ fields, bytes = block (requestLine method path :: fields.map Field.line)
      ∧ Head config method path fields length := by
  rw [parse, ite_error_eq_ok, ite_error_eq_ok, not_not] at h
  obtain ⟨-, hsuffix, h⟩ := h
  obtain ⟨text, rfl⟩ := isSuffixOf_iff_suffix.mp hsuffix
  have htext : (text ++ (crlf ++ crlf)).take ((text ++ (crlf ++ crlf)).length - 4) = text := by
    rw [length_append]
    exact take_left
  have hblock := block_splitCrlf text
  rw [htext] at h
  split at h
  · cases h
  next request lines hlines =>
  rw [hlines, append_assoc] at hblock
  split at h
  · next method' path' version hrequest =>
    rw [ite_error_eq_ok] at h
    obtain ⟨hparts, h⟩ := h
    simp only [Bool.or_eq_true, decide_eq_true_eq, not_or, ne_eq, not_not, Bool.not_eq_true',
      Bool.not_eq_false, gt_iff_lt, not_lt] at hparts
    obtain ⟨⟨⟨⟨hversion, hmethod⟩, hslash⟩, hlength⟩, hpath⟩ := hparts
    split at h
    · cases h
    next state hstate =>
    obtain ⟨fields, rfl, hadmits, rfl⟩ := foldlM_fieldLine.mp hstate
    obtain ⟨hfits, hcount, -, hdistinct⟩ := (admits_iff (Nat.zero_le _)).mp hadmits
    rw [ite_error_eq_ok, host_foldl, close_foldl] at h
    obtain ⟨hflags, h⟩ := h
    simp only [Bool.false_or, Bool.not_eq_true, Bool.or_eq_false_iff, Bool.not_eq_false',
      any_eq_true] at hflags
    obtain ⟨⟨host, hhost, hhost'⟩, close, hclose, hclose'⟩ := hflags
    split at h
    · cases h
    next length' hdeclared =>
    obtain ⟨rfl, hrest⟩ := Prod.mk.inj (Except.ok.inj h)
    cases hrest
    obtain ⟨hsome, hnone⟩ := @length_foldl fields ⟨[], none, false, false⟩ hdistinct
    obtain ⟨field, hfield, hnamed⟩ : ∃ field ∈ fields, field.named "content-length" = true := by
      by_contra hall
      cases hdeclared.symm.trans (hnone fun field hfield =>
        (Bool.not_eq_true _).mp fun hnamed => hall ⟨field, hfield, hnamed⟩)
    obtain rfl := Option.some.inj (hdeclared.symm.trans (hsome field hfield hnamed))
    obtain ⟨hcanonical, -, hle⟩ := (hfits field hfield).length hnamed
    refine ⟨fields, ?_, ?_⟩
    · rw [← hblock, eq_requestLine hrequest hversion]
    · exact {
        method := hmethod
        slash := hslash
        path_le := hlength
        path_bytes := hpath
        count := by rwa [length_nil, Nat.zero_add] at hcount
        names := fun field hfield => (hfits field hfield).name
        values := fun field hfield => (hfits field hfield).value
        distinct := hdistinct
        host := ⟨host, hhost, hhost', (hfits host hhost).host hhost'⟩
        close := ⟨close, hclose, hclose', (hfits close hclose).close hclose'⟩
        declared := ⟨field, hfield, hnamed, hcanonical, rfl⟩
        length_le := hle
        allowed := fun field hfield => (hfits field hfield).allowed }
  · cases h

theorem parse_complete {length : ℕ} (h : Head config method path fields length) :
    parse (block (requestLine method path :: fields.map Field.line)) config
      = .ok (method, path, length) := by
  have hblock := block_eq_intercalate (cons_ne_nil (requestLine method path)
    (fields.map Field.line))
  rw [append_assoc] at hblock
  have hvalid : Utf8.valid ((block (requestLine method path :: fields.map Field.line)).map
      UInt8.toNat) = true :=
    valid_ascii (ascii_block fun line hline => (h.lines line hline).2)
  rw [parse, hvalid, if_neg (by decide), hblock,
    if_neg (not_not.mpr (isSuffixOf_iff_suffix.mpr (suffix_append _ _)))]
  have htake : ∀ text : List UInt8,
      (text ++ (crlf ++ crlf)).take ((text ++ (crlf ++ crlf)).length - 4) = text := by
    intro text
    rw [length_append]
    exact take_left
  rw [htake, splitCrlf_intercalate h.plain (cons_ne_nil _ _)]
  have hspace : ∀ byte, pathByte byte = true → byte ≠ space := by
    rintro byte hbyte rfl
    exact absurd hbyte (by decide)
  have hmethod : space ∉ method := by
    rcases h.method with rfl | rfl <;> decide
  have hpath : space ∉ path := fun hmem =>
    hspace space (all_eq_true.mp h.path_bytes space hmem) rfl
  dsimp only
  rw [splitOn_requestLine hmethod hpath]
  dsimp only
  have hfields : (fields.map Field.line).foldlM (fieldLine config) ⟨[], none, false, false⟩
      = .ok (fields.foldl Fields.add ⟨[], none, false, false⟩) :=
    foldlM_fieldLine.mpr ⟨fields, rfl, (admits_iff (Nat.zero_le _)).mpr
      ⟨h.fits, by rw [length_nil, Nat.zero_add]; exact h.count, fun _ _ => nofun,
        h.distinct⟩, rfl⟩
  have hparts : (decide (ascii "HTTP/1.1" ≠ ascii "HTTP/1.1")
      || !(decide (method = ascii "GET") || decide (method = ascii "POST"))
      || decide (path.head? ≠ some 0x2f) || decide (path.length > 256) || !path.all pathByte)
      = false := by
    simp only [Bool.or_eq_false_iff, decide_eq_false_iff_not, ne_eq, not_not, Bool.not_eq_false',
      Bool.or_eq_true, decide_eq_true_eq, gt_iff_lt, not_lt]
    exact ⟨⟨⟨⟨trivial, h.method⟩, h.slash⟩, h.path_le⟩, h.path_bytes⟩
  obtain ⟨field, hfield, hnamed, -, rfl⟩ := h.declared
  have hlength := (@length_foldl fields ⟨[], none, false, false⟩ h.distinct).1 field hfield hnamed
  obtain ⟨host, hhost, hhost', -⟩ := h.host
  obtain ⟨close, hclose, hclose', -⟩ := h.close
  rw [hparts, if_neg Bool.false_ne_true, hfields]
  dsimp only
  rw [host_foldl, close_foldl, any_eq_true.mpr ⟨host, hhost, hhost'⟩,
    any_eq_true.mpr ⟨close, hclose, hclose'⟩, hlength]
  rfl

/-- The reader stops at the first empty line, where every line feed stands behind a carriage
return. -/
theorem takeHeader_run {header : List UInt8} (hroom : bytes.length ≤ room)
    (hend : crlf ++ crlf <:+ header ++ bytes)
    (hfirst : ∀ before behind, bytes = before ++ behind → behind ≠ [] →
      ¬crlf ++ crlf <:+ header ++ before)
    (hlf : ∀ before behind, header ++ bytes = before ++ lf :: behind →
      before.getLast? = some cr) (rest : List UInt8) :
    takeHeader room header (bytes ++ rest) = .ok (header ++ bytes) := by
  induction bytes generalizing room header with
  | nil =>
    rw [append_nil] at hend ⊢
    exact takeHeader_end (isSuffixOf_iff_suffix.mpr hend) _ _
  | cons byte bytes ih =>
    obtain _ | room := room
    · exact absurd hroom (by simp)
    have hopen : ¬(crlf ++ crlf).isSuffixOf header = true := fun h =>
      hfirst [] (byte :: bytes) rfl (cons_ne_nil _ _)
        (by rw [append_nil]; exact isSuffixOf_iff_suffix.mp h)
    have happend : header ++ byte :: bytes = header ++ [byte] ++ bytes := by simp
    rw [happend] at hend hlf ⊢
    rw [cons_append, takeHeader_cons hopen, if_neg]
    · refine ih (Nat.le_of_succ_le_succ hroom) hend (fun before behind heq hne => ?_) hlf
      rw [append_assoc]
      exact hfirst (byte :: before) behind (by rw [heq]; rfl) hne
    · rintro ⟨rfl, hlast⟩
      exact hlast (hlf header bytes (by simp))

theorem takeHeader_block {lines : List (List UInt8)}
    (h : ∀ line ∈ lines, Plain line) (hne : lines ≠ []) (hroom : (block lines).length ≤ room)
    (rest : List UInt8) : takeHeader room [] (block lines ++ rest) = .ok (block lines) := by
  have hblock := block_eq_intercalate hne
  refine takeHeader_run hroom ?_ ?_ (fun before behind => getLast?_of_block h) rest
  · exact ⟨crlf.intercalate lines, by rw [nil_append, hblock, append_assoc]⟩
  · rintro before behind heq hbehind ⟨front, hfront⟩
    rw [nil_append] at hfront
    rw [← hfront, append_assoc, append_assoc] at heq
    rw [← append_assoc crlf] at heq
    exact hbehind (block_end h heq)

/-- What is accepted is a request and has arrived as a whole, with nothing behind it. -/
theorem read_eq_ok_iff {chunks : Socket} :
    read chunks config = .ok (method, path, body) ↔
      ∃ arrived later, chunks = arrived ++ later
        ∧ Request config arrived.flatten method path body := by
  rw [read_eq_ok]
  constructor
  · rintro ⟨header, rest, htake, hparse, hflat, hextra⟩
    obtain ⟨_, _, -, rfl, hroom⟩ := takeHeader_le htake
    obtain ⟨fields, hheader, hhead⟩ := parse_sound hparse
    rw [← length_append] at hextra
    have hpos : 0 < (header ++ body).length := by
      rw [hheader, block_cons, length_append, length_append, length_append]
      exact Nat.lt_of_lt_of_le (by decide : 0 < crlf.length) (by omega)
    obtain ⟨arrived, later, rfl, harrived⟩ :=
      (Socket.hasExtra_skip hpos (by simp only [hflat, length_append]; omega)).mp hextra
    have hstream : arrived.flatten = header ++ body := by
      rw [flatten_append] at hflat
      exact (append_inj hflat harrived).1
    refine ⟨arrived, later, rfl, fields, ?_, ?_, hhead⟩
    · rw [hstream, hheader]
    · rwa [← hheader]
  · rintro ⟨arrived, later, rfl, fields, hstream, hmax, hhead⟩
    have hflat : (arrived ++ later).flatten
        = block (requestLine method path :: fields.map Field.line) ++ (body ++ later.flatten) := by
      rw [flatten_append, hstream, append_assoc]
    refine ⟨_, later.flatten, ?_, parse_complete hhead, by rw [hflat, append_assoc], ?_⟩
    · rw [hflat]
      exact takeHeader_block hhead.plain (cons_ne_nil _ _) hmax _
    · rw [← length_append]
      refine (Socket.hasExtra_skip ?_ ?_).mpr ⟨arrived, later, rfl, by rw [hstream]⟩
      · rw [block_cons, length_append, length_append, length_append]
        exact Nat.lt_of_lt_of_le (by decide : 0 < crlf.length) (by omega)
      · simp only [hflat, length_append]
        omega

/-! ### The end of the body -/

/-- Where a recipient may find the end of the body. -/
inductive BodyEnd (stream : List UInt8) : ℕ → Prop
  /-- Behind as many bytes as a content length says. -/
  | counted {request rest line value : List UInt8} {lines : List (List UInt8)}
    (h : Reading stream (request :: lines) rest) (hline : line ∈ lines)
    (hvalue : valueOf (ascii "content-length") line = some value)
    (hdigits : value.all isDigit = true) :
    BodyEnd stream (stream.length - rest.length + decimal value)
  /-- Anywhere, if there is a transfer coding. -/
  | coded {request rest line value : List UInt8} {lines : List (List UInt8)}
    (h : Reading stream (request :: lines) rest) (hline : line ∈ lines)
    (hvalue : valueOf (ascii "transfer-encoding") line = some value) (n : ℕ) : BodyEnd stream n
  /-- Behind the header, if nothing is declared. -/
  | empty {request rest : List UInt8} {lines : List (List UInt8)}
    (h : Reading stream (request :: lines) rest)
    (hnone : ∀ line ∈ lines, valueOf (ascii "content-length") line = none) :
    BodyEnd stream (stream.length - rest.length)

theorem valueOf_line {field : Field} (hname : field.name.all nameByte = true) (known : String) :
    valueOf (ascii known) field.line = if field.named known then
      some (trim (fun byte => byte = space || byte = tab) field.value) else none := by
  have hsplit : splitOnce colon field.line = some (field.name, field.value) :=
    splitOnce_eq_some.mpr ⟨rfl, colon_notMem hname⟩
  rw [valueOf, hsplit]
  rfl

/-- Without tabs, trimming blanks is trimming spaces. -/
theorem trim_blank {value : List UInt8} (h : value.all valueByte = true) :
    trim (fun byte => byte = space || byte = tab) value = trim (· = space) value := by
  refine trim_congr fun byte hmem => ?_
  have hne : byte ≠ tab := by
    rintro rfl
    exact absurd (all_eq_true.mp h tab hmem) (by decide)
  rw [decide_eq_false hne, Bool.or_false]

/-- A request leaves one place for the end of its body. -/
theorem bodyEnd_iff {stream : List UInt8}
    (h : Request config stream method path body) (later : List UInt8) (n : ℕ) :
    BodyEnd (stream ++ later) n ↔ n = stream.length := by
  obtain ⟨fields, rfl, -, hhead⟩ := h
  have hlength : ∀ field ∈ fields, field.named "content-length" = true →
      valueOf (ascii "content-length") field.line = some field.trimmed
        ∧ decimal field.trimmed = body.length := by
    intro field hfield hnamed
    obtain ⟨other, hother, hnamed', -, hvalue⟩ := hhead.declared
    rw [← hhead.unique hfield hother hnamed hnamed'] at hvalue
    rw [valueOf_line (hhead.names field hfield).2, if_pos hnamed,
      trim_blank (hhead.values field hfield)]
    exact ⟨rfl, hvalue⟩
  have hreading := reading_of_block hhead.plain (body ++ later)
  rw [← append_assoc] at hreading
  have hstart : (block (requestLine method path :: fields.map Field.line) ++ body ++ later).length
      - (body ++ later).length
      = (block (requestLine method path :: fields.map Field.line)).length := by
    simp only [length_append]
    omega
  constructor
  · intro hend
    cases hend with
    | counted h hline hvalue hdigits =>
      rw [append_assoc] at h
      obtain ⟨heq, rfl⟩ := reading_block hhead.plain h
      obtain ⟨rfl, rfl⟩ := List.cons.inj heq
      obtain ⟨field, hfield, rfl⟩ := mem_map.mp hline
      have hnamed : field.named "content-length" = true := by
        by_contra hnot
        rw [valueOf_line (hhead.names field hfield).2, if_neg hnot] at hvalue
        cases hvalue
      obtain ⟨hvalue', hdecimal⟩ := hlength field hfield hnamed
      obtain rfl := Option.some.inj (hvalue'.symm.trans hvalue)
      rw [hstart, hdecimal, length_append]
    | coded h hline hvalue =>
      rw [append_assoc] at h
      obtain ⟨heq, rfl⟩ := reading_block hhead.plain h
      obtain ⟨rfl, rfl⟩ := List.cons.inj heq
      obtain ⟨field, hfield, rfl⟩ := mem_map.mp hline
      rw [valueOf_line (hhead.names field hfield).2, Field.named,
        hhead.allowed field hfield _ (by decide)] at hvalue
      cases hvalue
    | empty h hnone =>
      rw [append_assoc] at h
      obtain ⟨heq, rfl⟩ := reading_block hhead.plain h
      obtain ⟨rfl, rfl⟩ := List.cons.inj heq
      obtain ⟨field, hfield, hnamed, -⟩ := hhead.declared
      have := hnone field.line (mem_map_of_mem hfield)
      cases (hlength field hfield hnamed).1.symm.trans this
  · rintro rfl
    obtain ⟨field, hfield, hnamed, hcanonical, hvalue⟩ := hhead.declared
    have := BodyEnd.counted hreading (mem_map_of_mem hfield)
      (hlength field hfield hnamed).1 hcanonical.all_isDigit
    rwa [hstart, hvalue, ← length_append] at this

/-- What is accepted is one request of the grammar, as far as the stream has arrived when its last
byte is read, and nobody finds another end of its body. -/
theorem read_exact (config : Config) :
    (∀ chunks method path body, read chunks config = .ok (method, path, body) ↔
      ∃ arrived later, chunks = arrived ++ later
        ∧ Request config arrived.flatten method path body)
    ∧ ∀ stream method path body, Request config stream method path body →
      ∀ later n, BodyEnd (stream ++ later) n ↔ n = stream.length :=
  ⟨fun _ _ _ _ => read_eq_ok_iff, fun _ _ _ _ => bodyEnd_iff⟩

/-! ### A request -/

def sampleConfig : Config where
  port := 80
  headerBytes := 8192
  bodyBytes := 65536
  headerBytes_ge := by decide
  headerBytes_le := le_rfl
  bodyBytes_pos := by decide
  bodyBytes_le := le_rfl

def sampleFields : List Field :=
  [⟨ascii "Host", ascii " 127.0.0.1:80"⟩, ⟨ascii "Content-Length", ascii " 0"⟩,
    ⟨ascii "Connection", ascii " Close"⟩]

def sample : List UInt8 :=
  block (requestLine (ascii "GET") (ascii "/") :: sampleFields.map Field.line)

theorem request_sample : Request sampleConfig sample (ascii "GET") (ascii "/") [] := by
  refine ⟨sampleFields, (append_nil _).symm, by decide, ?_⟩
  exact {
    method := .inl rfl
    slash := rfl
    path_le := by decide
    path_bytes := by decide
    count := by decide
    names := by decide
    values := by decide
    distinct := by decide
    host := ⟨_, mem_cons_self, by decide, by decide⟩
    close := ⟨⟨ascii "Connection", ascii " Close"⟩, by decide, by decide, by decide⟩
    declared := ⟨⟨ascii "Content-Length", ascii " 0"⟩, by decide, by decide,
      ⟨by decide, by decide, by decide⟩, by decide⟩
    length_le := by decide
    allowed := by decide }

theorem read_exact_sample :
    read [sample] sampleConfig = .ok (ascii "GET", ascii "/", [])
      ∧ ∀ later n, BodyEnd (sample ++ later) n ↔ n = sample.length := by
  refine ⟨((read_exact sampleConfig).1 _ _ _ _).mpr ⟨[sample], [], rfl, ?_⟩,
    (read_exact sampleConfig).2 sample _ _ _ request_sample⟩
  rw [flatten_singleton]
  exact request_sample

/-- A byte that arrives behind a request is not seen, and there is no request with it. -/
theorem read_late : read [sample, ascii "x"] sampleConfig = .ok (ascii "GET", ascii "/", [])
    ∧ ¬∃ method path body, Request sampleConfig [sample, ascii "x"].flatten method path body := by
  have hflat : [sample, ascii "x"].flatten = sample ++ ascii "x" := by
    rw [flatten_cons, flatten_singleton]
  refine ⟨read_eq_ok_iff.mpr ⟨[sample], [ascii "x"], rfl, ?_⟩, ?_⟩
  · rw [flatten_singleton]
    exact request_sample
  · rintro ⟨method, path, body, h⟩
    rw [hflat] at h
    have hlong := bodyEnd_iff h [] (sample ++ ascii "x").length
    rw [append_nil, bodyEnd_iff request_sample] at hlong
    have := hlong.mpr rfl
    rw [length_append] at this
    exact absurd this (by decide)

end Zryna.Driver.ServerTransport
