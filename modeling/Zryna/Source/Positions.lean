import Zryna.Foundation.Checked
import Zryna.Foundation.Text
import Zryna.Source

/-!
# Positions in source files

Spans out of UTF-16 offsets, and the lines and columns that a span resolves to. A source map keeps
a table of line starts for each file, `lineStarts`, which it computes out of the bytes of the text.

The offsets of all three kinds are measures of prefixes of the text, so `utf16ToUtf8` is compared
with prefixes, and `resolvePosition` with the places of the text.
-/

namespace Zryna

open Text List

open Text (Line lines lineStart Place)

/-! ### The table of lines -/

def lineStartsFrom : List UInt8 → ℕ → List ℕ → Except SourceError (List ℕ)
  | [], _, starts => .ok starts
  | byte :: bytes, index, starts =>
    let width := terminatorBytes (byte :: bytes)
    if width = 0 then lineStartsFrom bytes (index + 1) starts
    else if index + width ≥ 2 ^ 32 then
      .error ⟨"ZRYNA-S1003", none, "source line offset exceeds the supported range",
        "reduce the source file before analysis"⟩
    else lineStartsFrom ((byte :: bytes).drop width) (index + width) (starts ++ [index + width])
termination_by bytes => bytes.length
decreasing_by
  · exact Nat.lt_succ_self _
  · simp only [length_drop, length_cons]
    omega

/-- The byte offsets at which the lines of a text start. -/
def lineStarts (text : String) : Except SourceError (List ℕ) :=
  lineStartsFrom (encode text.toList) 0 [0]

/-- The table that a source map keeps with a file. -/
def SourceFile.lineStarts (source : SourceFile) : List ℕ :=
  (Zryna.lineStarts source.text).toOption.getD []

/-! ### Positions -/

/-- A zero-based resolved position whose byte offset remains authoritative. -/
structure ResolvedPosition where
  byteOffset : ℕ
  line : ℕ
  scalarColumn : ℕ
  utf16Column : ℕ
deriving DecidableEq

/-- A span proven to belong to one source map. -/
structure ResolvedSpan where
  source : SourceFile
  start : ResolvedPosition
  stop : ResolvedPosition
deriving DecidableEq

/-- The UTF-16 code units of a scalar value. -/
def utf16Width (c : Char) : ℕ := if c.val.toNat ≤ 0xffff then 1 else 2

/-- A count as an unsigned number of 32 bits, or the greatest one. -/
def saturated32 (n : ℕ) : ℕ := if n < 2 ^ 32 then n else 2 ^ 32 - 1

/-- Resolves an offset. There is no result where the code would slice the text off a boundary. -/
def resolvePosition (source : SourceFile) (offset : ℕ) : Option ResolvedPosition := do
  -- the table increases: the partition point is the first start behind the offset
  let lineIndex := source.lineStarts.findIdx (¬· ≤ offset) - 1
  let lineStart ← source.lineStarts[lineIndex]?
  if offset < lineStart then none
  let (_, rest) ← split source.text.toList lineStart
  let (column, _) ← split rest (offset - lineStart)
  some {
    byteOffset := offset
    line := saturated32 lineIndex
    scalarColumn := saturated32 column.length
    utf16Column := saturated32 (measure utf16Width column) }

def invalidUtf16 (source : SourceFile) (offset : ℕ) : SourceError where
  code := "ZRYNA-S1009"
  path := some source.path
  message := s!"UTF-16 code-unit offset {offset} is not an exact source boundary"
  guidance := "use an in-range UTF-16 offset that does not split a surrogate pair"

def utf16ToUtf8From (source : SourceFile) (requested : ℕ) :
    List Char → (byteOffset utf16Offset : ℕ) → Except SourceError ℕ
  | [], byteOffset, utf16Offset =>
    if requested = utf16Offset then
      if byteOffset ≥ 2 ^ 32 then .error (invalidUtf16 source requested) else .ok byteOffset
    else .error (invalidUtf16 source requested)
  | c :: text, byteOffset, utf16Offset =>
    if requested = utf16Offset then
      if byteOffset ≥ 2 ^ 32 then .error (invalidUtf16 source requested) else .ok byteOffset
    else
      let next := utf16Offset + utf16Width c
      if next ≥ 2 ^ 32 then .error (invalidUtf16 source requested)
      else if requested < next then .error (invalidUtf16 source requested)
      else utf16ToUtf8From source requested text (byteOffset + c.utf8Size) next

/-- The byte offset of a UTF-16 offset. -/
def utf16ToUtf8 (source : SourceFile) (requested : ℕ) : Except SourceError ℕ :=
  utf16ToUtf8From source requested source.text.toList 0 0

namespace SourceMap

variable (sources : SourceMap)

/-- Constructs and validates an authoritative UTF-8 byte span. -/
def span (file : FileId) (start stop : ℕ) : Except SourceError Span := do
  let span : Span := ⟨file, start, stop⟩
  let _ ← sources.validatedSource span
  .ok span

/-- Converts exact UTF-16 code-unit boundaries into an authoritative UTF-8 byte span. -/
def spanFromUtf16 (file : FileId) (start stop : ℕ) : Except SourceError Span :=
  if start > stop then .error (invalidSpanOrder file start stop)
  else
    match sources.source file with
    | none => .error (unknownFile file)
    | some source => do
      let start ← utf16ToUtf8 source start
      let stop ← utf16ToUtf8 source stop
      sources.span file start stop

/-- Resolves a span with its lines and columns. -/
def resolveSpan (span : Span) : Except SourceError (Option ResolvedSpan) := do
  let source ← sources.validatedSource span
  .ok do
    let start ← resolvePosition source span.start
    let stop ← resolvePosition source span.stop
    some ⟨source, start, stop⟩

end SourceMap

/-! ### What the table holds -/

theorem isCharBoundary_eq (text : List Char) (n : ℕ) :
    isCharBoundary text n = (split text n).isSome := by
  induction text generalizing n with
  | nil => cases n <;> rfl
  | cons c text ih =>
    cases n with
    | zero => rfl
    | succ n =>
      rw [isCharBoundary, split, ih]
      split_ifs with h <;> simp [h]

theorem isCharBoundary_iff {text : List Char} {n : ℕ} :
    isCharBoundary text n = true ↔ ∃ pre, pre <+: text ∧ utf8Length pre = n := by
  rw [isCharBoundary_eq, Option.isSome_iff_exists]
  constructor
  · rintro ⟨⟨pre, suf⟩, h⟩
    obtain ⟨rfl, hn⟩ := split_eq_some.mp h
    exact ⟨pre, prefix_append _ _, hn⟩
  · rintro ⟨pre, ⟨suf, rfl⟩, hn⟩
    exact ⟨(pre, suf), split_eq_some.mpr ⟨rfl, hn⟩⟩

theorem lineStartsFrom_unbroken {front : List UInt8}
    (hfront : ∀ byte ∈ front, byte ≠ 13 ∧ byte ≠ 10)
    (bytes : List UInt8) (index : ℕ) (starts : List ℕ) :
    lineStartsFrom (front ++ bytes) index starts
      = lineStartsFrom bytes (index + front.length) starts := by
  induction front generalizing index with
  | nil => rfl
  | cons byte front ih =>
    obtain ⟨hbyte, hfront⟩ := forall_mem_cons.mp hfront
    rw [cons_append, lineStartsFrom, if_pos (terminatorBytes_of_not_break hbyte _),
      ih hfront, length_cons]
    congr 1
    omega

/-- The scan finds the starts of all lines but the first. -/
theorem lineStartsFrom_eq (text : List Char) {index : ℕ} (starts : List ℕ)
    (hlt : index + measure Char.utf8Size text < 2 ^ 32) :
    lineStartsFrom (encode text) index starts
      = .ok (starts ++ ((List.range ((lines text).length - 1)).map fun k =>
        index + measure Char.utf8Size (lineStart text (k + 1)))) := by
  induction text using lines_induction generalizing index starts with
  | last front hfront =>
    have hskip := lineStartsFrom_unbroken
      (fun _ h => not_break_of_mem_encode hfront h) [] index starts
    rw [append_nil] at hskip
    rw [hskip, lines_unbroken hfront, lineStartsFrom]
    simp
  | line front terminator rest hfront hterminator ih =>
    have hwidth := terminatorBytes_encode hterminator
    have hpos : measure Char.utf8Size terminator ≠ 0 :=
      mt (measure_eq_zero positive_utf8Size).mp hterminator.ne_nil
    have hlines := lines_terminated hfront hterminator
    rw [measure_append, measure_append] at hlt
    rw [append_assoc, encode_append, lineStartsFrom_unbroken
      (fun _ h => not_break_of_mem_encode hfront h), length_encode]
    cases hbytes : encode (terminator ++ rest) with
    | nil =>
      rw [hbytes] at hwidth
      exact absurd hwidth.symm hpos
    | cons byte bytes =>
      have hrest : (byte :: bytes).drop (measure Char.utf8Size terminator)
          = encode rest := by
        rw [← hbytes, encode_append, ← length_encode, drop_left]
      obtain ⟨n, hn⟩ := Nat.exists_eq_succ_of_ne_zero
        (mt length_eq_zero_iff.mp (lines_ne_nil rest))
      rw [hbytes] at hwidth
      rw [lineStartsFrom, hwidth, if_neg hpos, hrest, if_neg (by omega), ih _ (by omega),
        ← append_assoc front, hlines, length_cons, hn, Nat.succ_sub_one, Nat.succ_sub_one,
        range_succ_eq_map, map_cons, map_map, append_assoc,
        singleton_append]
      congr 3
      · rw [lineStart_terminated hfront hterminator]
        simp only [lineStart_zero, measure_append, measure_nil, Nat.add_zero,
          Nat.add_assoc]
      · refine map_congr_left fun k _ => ?_
        show _ = index + measure Char.utf8Size (lineStart _ (k + 1 + 1))
        rw [lineStart_terminated hfront hterminator]
        simp only [measure_append, Nat.add_assoc]

/-- The table of a text holds the starts of its lines. -/
theorem lineStarts_eq {text : String} (hlt : utf8Length text.toList < 2 ^ 32) :
    Zryna.lineStarts text = .ok ((List.range (lines text.toList).length).map fun k =>
      utf8Length (lineStart text.toList k)) := by
  have hlt : 0 + measure Char.utf8Size text.toList < 2 ^ 32 := by rwa [Nat.zero_add]
  obtain ⟨n, hn⟩ := Nat.exists_eq_succ_of_ne_zero
    (mt length_eq_zero_iff.mp (lines_ne_nil text.toList))
  rw [Zryna.lineStarts, lineStartsFrom_eq _ _ hlt, hn, Nat.succ_sub_one, range_succ_eq_map,
    map_cons, map_map]
  simp only [Nat.zero_add]
  rfl

/-! ### What offsets stand for -/

theorem positive_utf16Width : Positive utf16Width := fun c => by
  unfold utf16Width
  split <;> decide

theorem utf16Width_le (c : Char) : utf16Width c ≤ c.utf8Size := by
  unfold utf16Width
  split_ifs with h
  · exact c.utf8Size_pos
  · rw [Char.utf8Size_eq_four_iff.mpr (UInt32.lt_iff_toNat_lt.mpr (Nat.not_le.mp h))]
    decide

variable {source : SourceFile} {file : FileId}

theorem utf16ToUtf8From_eq_ok {requested offset : ℕ} (text : List Char)
    {byteOffset utf16Offset : ℕ} (hbytes : byteOffset + measure Char.utf8Size text < 2 ^ 32)
    (hunits : utf16Offset + measure utf16Width text < 2 ^ 32) :
    utf16ToUtf8From source requested text byteOffset utf16Offset = .ok offset ↔
      ∃ pre, pre <+: text ∧ utf16Offset + measure utf16Width pre = requested
        ∧ byteOffset + measure Char.utf8Size pre = offset := by
  have hfits : ¬byteOffset ≥ 2 ^ 32 := by omega
  induction text generalizing byteOffset utf16Offset with
  | nil =>
    rw [utf16ToUtf8From, if_neg hfits]
    simp only [prefix_nil, exists_eq_left, measure_nil, Nat.add_zero]
    split_ifs with h
    · rw [Except.ok.injEq, h]
      exact (and_iff_right rfl).symm
    · exact iff_of_false nofun fun ⟨heq, _⟩ => h heq.symm
  | cons c text ih =>
    have hwidth := positive_utf16Width c
    rw [measure_cons] at hbytes hunits
    have hcons : (∃ pre, pre <+: c :: text ∧ utf16Offset + measure utf16Width pre = requested
        ∧ byteOffset + measure Char.utf8Size pre = offset) ↔
      utf16Offset = requested ∧ byteOffset = offset ∨ ∃ pre, pre <+: text
        ∧ utf16Offset + utf16Width c + measure utf16Width pre = requested
        ∧ byteOffset + c.utf8Size + measure Char.utf8Size pre = offset := by
      simp only [prefix_cons_iff, or_and_right, exists_or, exists_eq_left, measure_nil,
        Nat.add_zero, Nat.add_assoc]
      refine or_congr_right ⟨?_, ?_⟩
      · rintro ⟨_, ⟨pre, rfl, hpre⟩, hunits, hbytes⟩
        exact ⟨pre, hpre, by rwa [measure_cons] at hunits,
          by rwa [measure_cons] at hbytes⟩
      · rintro ⟨pre, hpre, hunits, hbytes⟩
        exact ⟨_, ⟨pre, rfl, hpre⟩, by rwa [measure_cons], by rwa [measure_cons]⟩
    rw [hcons, utf16ToUtf8From, if_neg hfits]
    by_cases h : requested = utf16Offset
    · rw [if_pos h, Except.ok.injEq, h, or_iff_left]
      · exact (and_iff_right rfl).symm
      · rintro ⟨pre, -, hunits, -⟩
        omega
    rw [if_neg h, or_iff_right fun ⟨heq, _⟩ => h heq.symm]
    dsimp only
    rw [if_neg (by omega)]
    split_ifs with hinside
    · refine iff_of_false nofun ?_
      rintro ⟨pre, -, hunits, -⟩
      omega
    · exact ih (by omega) (by omega) (by omega)

theorem length_le (sources : SourceMap) (h : sources.source file = some source) :
    utf8Length source.text.toList ≤ maxSourceFileBytes := by
  unfold SourceMap.source at h
  split at h
  · exact sources.text_le source (mem_of_getElem? h)
  · cases h

/-- A UTF-16 offset of a prefix has the byte offset of the prefix, and no other one has any. -/
theorem utf16ToUtf8_eq_ok (hlt : utf8Length source.text.toList < 2 ^ 32)
    {requested offset : ℕ} : utf16ToUtf8 source requested = .ok offset ↔
      ∃ pre, pre <+: source.text.toList ∧ measure utf16Width pre = requested
        ∧ utf8Length pre = offset := by
  have hunits := measure_le_measure utf16Width_le source.text.toList
  have := @utf16ToUtf8From_eq_ok source requested offset source.text.toList 0 0
    ((Nat.zero_add _).trans_lt hlt)
    ((Nat.zero_add _).trans_lt (hunits.trans_lt hlt))
  simp only [Nat.zero_add] at this
  exact this

variable {pre : List Char}

/-- A span between two prefixes is a span of the file. -/
theorem SourceMap.validatedSource_eq {sources : SourceMap}
    (hsource : sources.source file = some source) {pre' : List Char}
    (hpre : pre <+: source.text.toList) (hpre' : pre' <+: source.text.toList)
    (hle : utf8Length pre ≤ utf8Length pre') :
    sources.validatedSource ⟨file, utf8Length pre, utf8Length pre'⟩ = .ok source := by
  have hlt : utf8Length source.text.toList < 2 ^ 32 :=
    (length_le sources hsource).trans_lt (by decide)
  have hstop : utf8Length pre' ≤ utf8Length source.text.toList :=
    (prefix_iff_measure_le positive_utf8Size hpre' prefix_rfl).mp hpre'
  unfold validatedSource
  rw [hsource]
  dsimp only
  rw [if_neg (Nat.not_lt.mpr hle), if_neg (Nat.not_le.mpr hlt), if_neg (Nat.not_lt.mpr hstop),
    if_neg, if_neg]
  · rw [isCharBoundary_iff.mpr ⟨pre', hpre', rfl⟩]
    exact Bool.false_ne_true
  · rw [isCharBoundary_iff.mpr ⟨pre, hpre, rfl⟩]
    exact Bool.false_ne_true

/-! ### What a span resolves to -/

/-- The position of a prefix: the line that it ends on, and what it holds of this line. -/
structure ResolvedPosition.Locates (text pre : List Char) (position : ResolvedPosition) : Prop where
  byteOffset : position.byteOffset = utf8Length pre
  line_lt : position.line < (lines text).length
  last : position.line + 1 < (lines text).length → ¬lineStart text (position.line + 1) <+: pre
  column : ∃ column, lineStart text position.line ++ column = pre
    ∧ position.scalarColumn = column.length
    ∧ position.utf16Column = measure utf16Width column

theorem ResolvedPosition.Locates.utf16 {text : List Char} {position : ResolvedPosition}
    (h : position.Locates text pre) :
    measure utf16Width (lineStart text position.line) + position.utf16Column
      = measure utf16Width pre := by
  obtain ⟨column, rfl, -, hcolumn⟩ := h.column
  rw [hcolumn, measure_append]

theorem resolvePosition_eq (hlt : utf8Length source.text.toList < 2 ^ 32 - 1)
    (hpre : pre <+: source.text.toList) :
    ∃ position, resolvePosition source (utf8Length pre) = some position
      ∧ position.Locates source.text.toList pre := by
  have htable : source.lineStarts = (List.range (lines source.text.toList).length).map fun k =>
      utf8Length (lineStart source.text.toList k) := by
    rw [SourceFile.lineStarts, lineStarts_eq (by omega)]
    rfl
  have hlength : source.lineStarts.length = (lines source.text.toList).length := by
    rw [htable, length_map, length_range]
  have hget {j : ℕ} (hj : j < source.lineStarts.length) :
      source.lineStarts[j] = utf8Length (lineStart source.text.toList j) := by
    simp only [htable, getElem_map, getElem_range]
  have hprefix (j : ℕ) : utf8Length (lineStart source.text.toList j) ≤ utf8Length pre
      ↔ lineStart source.text.toList j <+: pre :=
    (prefix_iff_measure_le positive_utf8Size (lineStart_isPrefix j) hpre).symm
  have hpos : 0 < source.lineStarts.length :=
    hlength ▸ length_pos_of_ne_nil (lines_ne_nil _)
  -- the point is behind the start of the first line
  have hpoint : 0 < source.lineStarts.findIdx (¬· ≤ utf8Length pre) := by
    by_contra hzero
    have hfirst : source.lineStarts.findIdx (¬· ≤ utf8Length pre) < source.lineStarts.length := by
      omega
    have := findIdx_getElem (w := hfirst)
    simp only [hget, decide_eq_true_eq, Nat.eq_zero_of_not_pos hzero, lineStart_zero] at this
    exact this (Nat.zero_le _)
  obtain ⟨k, hk⟩ := Nat.exists_eq_succ_of_ne_zero hpoint.ne'
  have hklt : k < source.lineStarts.length :=
    (hk ▸ Nat.lt_succ_self k : k < _).trans_le findIdx_le_length
  have hstart : lineStart source.text.toList k <+: pre := by
    have := not_of_lt_findIdx (hk ▸ Nat.lt_succ_self k)
    simpa only [hget, decide_eq_false_iff_not, not_not, hprefix] using this
  obtain ⟨column, rfl⟩ := hstart
  refine ⟨⟨utf8Length (lineStart source.text.toList k ++ column), k, column.length,
    measure utf16Width column⟩, ?_, rfl, hlength ▸ hklt, fun hnext => ?_,
    column, rfl, rfl, rfl⟩
  rotate_left
  · change k + 1 < _ at hnext
    have hnext : source.lineStarts.findIdx
        (¬· ≤ utf8Length (lineStart source.text.toList k ++ column))
        < source.lineStarts.length := by omega
    have := findIdx_getElem (w := hnext)
    simpa only [hget, decide_eq_true_eq, hprefix, hk] using this
  · have hbytes : utf8Length (lineStart source.text.toList k ++ column)
        ≤ utf8Length source.text.toList :=
      (prefix_iff_measure_le positive_utf8Size hpre prefix_rfl).mp hpre
    have hsize : utf8Length (lineStart source.text.toList k ++ column)
        = utf8Length (lineStart source.text.toList k) + utf8Length column := measure_append
    obtain ⟨suf, hsuf⟩ := hpre
    have hsplit : split source.text.toList (utf8Length (lineStart source.text.toList k))
        = some (lineStart source.text.toList k, column ++ suf) :=
      split_eq_some.mpr ⟨hsuf.symm.trans (append_assoc ..), rfl⟩
    have hcolumn : split (column ++ suf) (utf8Length column) = some (column, suf) :=
      split_eq_some.mpr ⟨rfl, rfl⟩
    have hscalars : column.length ≤ utf8Length column :=
      length_le_measure positive_utf8Size column
    have hunits : measure utf16Width column ≤ utf8Length column :=
      measure_le_measure utf16Width_le column
    have hlines := length_lines_le source.text.toList
    have htext : source.text.toList.length ≤ utf8Length source.text.toList :=
      length_le_measure positive_utf8Size source.text.toList
    unfold resolvePosition
    dsimp only
    rw [hk, Nat.succ_sub_one, getElem?_eq_getElem hklt, hget hklt]
    simp only [Option.bind_eq_bind, Option.bind_some]
    rw [if_neg (by omega), hsplit, hsize, Nat.add_sub_cancel_left]
    simp only [Option.bind_some, hcolumn, saturated32]
    rw [if_pos (by omega), if_pos (by omega), if_pos (by omega)]

/-- Spans out of UTF-16 offsets are exact. A pair of offsets has a span if and only if it is ordered
and both count the units of prefixes of the text; the span then holds the bytes of these prefixes,
is one of the file, and resolves to positions that lead back to the offsets. -/
theorem spanFromUtf16_exact (sources : SourceMap) (source : SourceFile)
    (hsource : sources.source source.id = some source) (start stop : ℕ) :
    ((∃ span, sources.spanFromUtf16 source.id start stop = .ok span) ↔ start ≤ stop
      ∧ (∃ pre, pre <+: source.text.toList ∧ measure utf16Width pre = start)
      ∧ ∃ pre, pre <+: source.text.toList ∧ measure utf16Width pre = stop)
    ∧ ∀ span, sources.spanFromUtf16 source.id start stop = .ok span → ∃ pre pre' resolved,
      pre <+: source.text.toList ∧ measure utf16Width pre = start
      ∧ pre' <+: source.text.toList ∧ measure utf16Width pre' = stop
      ∧ span = ⟨source.id, utf8Length pre, utf8Length pre'⟩
      ∧ sources.validatedSource span = .ok source
      ∧ sources.resolveSpan span = .ok (some resolved) ∧ resolved.source = source
      ∧ resolved.start.Locates source.text.toList pre
      ∧ resolved.stop.Locates source.text.toList pre'
      ∧ measure utf16Width (lineStart source.text.toList resolved.start.line)
        + resolved.start.utf16Column = start
      ∧ measure utf16Width (lineStart source.text.toList resolved.stop.line)
        + resolved.stop.utf16Column = stop := by
  have hlt := length_le sources hsource
  have hfits : utf8Length source.text.toList < 2 ^ 32 := hlt.trans_lt (by decide)
  -- the span of two prefixes, and what it resolves to
  have hspan {pre pre' : List Char} (hpre : pre <+: source.text.toList)
      (hpre' : pre' <+: source.text.toList)
      (hle : measure utf16Width pre ≤ measure utf16Width pre') :
      sources.validatedSource ⟨source.id, utf8Length pre, utf8Length pre'⟩ = .ok source
        ∧ sources.spanFromUtf16 source.id (measure utf16Width pre)
          (measure utf16Width pre') = .ok ⟨source.id, utf8Length pre, utf8Length pre'⟩ := by
    have hprefix := (prefix_iff_measure_le positive_utf16Width hpre hpre').mpr hle
    have hvalid := SourceMap.validatedSource_eq hsource hpre hpre'
      ((prefix_iff_measure_le positive_utf8Size hpre hpre').mp hprefix)
    refine ⟨hvalid, ?_⟩
    unfold SourceMap.spanFromUtf16 SourceMap.span
    rw [if_neg (Nat.not_lt.mpr hle), hsource]
    dsimp only
    rw [(utf16ToUtf8_eq_ok hfits).mpr ⟨pre, hpre, rfl, rfl⟩,
      (utf16ToUtf8_eq_ok hfits).mpr ⟨pre', hpre', rfl, rfl⟩]
    show sources.validatedSource _ >>= _ = _
    rw [hvalid]
    rfl
  have hinv {span : Span} (h : sources.spanFromUtf16 source.id start stop = .ok span) :
      start ≤ stop ∧ ∃ pre pre', pre <+: source.text.toList ∧ pre' <+: source.text.toList
        ∧ measure utf16Width pre = start ∧ measure utf16Width pre' = stop := by
    unfold SourceMap.spanFromUtf16 at h
    rw [Checked.ite_error_eq_ok, hsource] at h
    simp only [Checked.bind_eq_ok, utf16ToUtf8_eq_ok hfits] at h
    obtain ⟨hle, _, ⟨pre, hpre, hstart, -⟩, _, ⟨pre', hpre', hstop, -⟩, -⟩ := h
    exact ⟨Nat.not_lt.mp hle, pre, pre', hpre, hpre', hstart, hstop⟩
  refine ⟨⟨?_, ?_⟩, fun span h => ?_⟩
  · rintro ⟨span, h⟩
    obtain ⟨hle, pre, pre', hpre, hpre', hstart, hstop⟩ := hinv h
    exact ⟨hle, ⟨pre, hpre, hstart⟩, pre', hpre', hstop⟩
  · rintro ⟨hle, ⟨pre, hpre, rfl⟩, pre', hpre', rfl⟩
    exact ⟨_, (hspan hpre hpre' hle).2⟩
  · obtain ⟨hle, pre, pre', hpre, hpre', rfl, rfl⟩ := hinv h
    obtain ⟨hvalid, heq⟩ := hspan hpre hpre' hle
    obtain rfl := Except.ok.inj (h.symm.trans heq)
    have hroom : utf8Length source.text.toList < 2 ^ 32 - 1 := hlt.trans_lt (by decide)
    obtain ⟨position, hposition, hlocates⟩ := resolvePosition_eq hroom hpre
    obtain ⟨position', hposition', hlocates'⟩ := resolvePosition_eq hroom hpre'
    refine ⟨pre, pre', ⟨source, position, position'⟩, hpre, rfl, hpre', rfl, rfl, hvalid, ?_, rfl,
      hlocates, hlocates', hlocates.utf16, hlocates'.utf16⟩
    unfold SourceMap.resolveSpan
    rw [hvalid]
    show Except.ok (resolvePosition source (utf8Length pre) >>= _) = _
    rw [hposition, Option.bind_eq_bind, Option.bind_some, hposition']
    rfl

private def mixedText : SourceMap where
  id := 0
  files := [⟨⟨0, 0⟩, "src/main.zry", "a😀b\r\né"⟩]
  files_le := by decide
  id_eq := by
    intro i f h
    cases i with
    | zero =>
      cases h
      rfl
    | succ i => cases h
  text_le := by decide

/-- The scalar value outside the basic plane has two units and four bytes. -/
theorem spanFromUtf16_exact_astral : ∃ span, mixedText.spanFromUtf16 ⟨0, 0⟩ 1 3 = .ok span :=
  (spanFromUtf16_exact mixedText ⟨⟨0, 0⟩, "src/main.zry", "a😀b\r\né"⟩ rfl 1 3).1.mpr
    ⟨by decide, ⟨['a'], by decide, by decide⟩, ['a', '😀'], by decide, by decide⟩

end Zryna
