import Zryna.LanguageServer.Server
import Zryna.Source.Positions

/-!
# Positions of the protocol

A client counts lines, and units within a line in the encoding that was negotiated. `positionToByte`
and `byteToPosition` translate to byte offsets and back, with scans of their own. Both are compared
with the places of the text (`Stands`), in which each of them reads one half.
-/

namespace Zryna.LanguageServer

open List Option

open Text (lines lineStart Place)

structure LineBounds where
  start : ℕ
  contentEnd : ℕ
  nextStart : ℕ
deriving DecidableEq

def lineBoundsFrom (requested : ℕ) : List UInt8 → (line start index : ℕ) → Option LineBounds
  | [], line, start, index =>
    if line = requested then some ⟨start, index, index⟩ else none
  | byte :: bytes, line, start, index =>
    let width := Text.terminatorBytes (byte :: bytes)
    if width = 0 then lineBoundsFrom requested bytes line start (index + 1)
    else if line = requested then some ⟨start, index, index + width⟩
    else if line + 1 ≥ 2 ^ 32 then none
    else lineBoundsFrom requested ((byte :: bytes).drop width) (line + 1) (index + width)
      (index + width)
termination_by bytes => bytes.length
decreasing_by
  · exact Nat.lt_succ_self _
  · simp only [length_drop, length_cons]
    omega

def lineBounds (text : String) (requested : ℕ) : Option LineBounds :=
  lineBoundsFrom requested (Text.encode text.toList) 0 0 0

/-- The part of a text between two byte offsets, if they are boundaries in their order. -/
def slice (text : List Char) (start stop : ℕ) : Option (List Char) :=
  if start ≤ stop then do
    let (_, rest) ← Text.split text start
    let (part, _) ← Text.split rest (stop - start)
    some part
  else none

def unitsToByteFrom (width : Char → ℕ) (requested : ℕ) : List Char → (offset units : ℕ) → Option ℕ
  | [], offset, units => if units = requested then some offset else none
  | c :: text, offset, units =>
    if units = requested then some offset
    else
      let next := units + width c
      if next ≥ 2 ^ 32 then none
      else if requested < next then none
      else unitsToByteFrom width requested text (offset + c.utf8Size) next

def unitsToByte (text : List Char) (requested : ℕ) (width : Char → ℕ) : Option ℕ :=
  unitsToByteFrom width requested text 0 0

/-- A number that fits into 32 bits. -/
def checked32 (n : ℕ) : Option ℕ := if n < 2 ^ 32 then some n else none

/-- The byte offset within a line of a number of units. -/
def relativeByte (line : List Char) (character : ℕ) : PositionEncoding → Option ℕ
  | .utf8 =>
    if character ≤ utf8Length line ∧ isCharBoundary line character then some character else none
  | .utf16 => unitsToByte line character utf16Width
  | .utf32 => unitsToByte line character fun _ => 1

def positionToByte (text : String) (position : Position) (encoding : PositionEncoding) :
    Option ℕ := do
  let bounds ← lineBounds text position.line
  let line ← slice text.toList bounds.start bounds.contentEnd
  let relative ← relativeByte line position.character encoding
  checked32 (bounds.start + relative)

/-- The units of what stands in front of an offset in its line. -/
def characterOf (pre : List Char) : PositionEncoding → Option ℕ
  | .utf8 => checked32 (utf8Length pre)
  | .utf16 => checked32 (Text.measure utf16Width pre)
  | .utf32 => checked32 pre.length

def byteToPositionFrom (text : String) (offset : ℕ) (encoding : PositionEncoding) (line : ℕ) :
    Option Position :=
  match lineBounds text line with
  | none => none
  | some bounds =>
    if offset ≤ bounds.contentEnd then do
      let pre ← slice text.toList bounds.start offset
      let character ← characterOf pre encoding
      some ⟨line, character⟩
    else if offset < bounds.nextStart then none
    else if line + 1 < 2 ^ 32 then byteToPositionFrom text offset encoding (line + 1)
    else none
termination_by 2 ^ 32 - line

def byteToPosition (text : String) (offset : ℕ) (encoding : PositionEncoding) : Option Position :=
  if offset > utf8Length text.toList ∨ ¬isCharBoundary text.toList offset then none
  else byteToPositionFrom text offset encoding 0

/-! ### What the scans find -/

/-- The bounds of a line, counted from an offset on. -/
def boundsOf (text : List Char) (start k : ℕ) : Option LineBounds :=
  ((lines text)[k]?).map fun line =>
    let lineOffset := start + utf8Length (lineStart text k)
    ⟨lineOffset, lineOffset + utf8Length line.content, lineOffset + utf8Length line.full⟩

theorem lineBoundsFrom_unbroken {front : List UInt8}
    (hfront : ∀ byte ∈ front, byte ≠ 13 ∧ byte ≠ 10) (bytes : List UInt8)
    (requested line start index : ℕ) :
    lineBoundsFrom requested (front ++ bytes) line start index
      = lineBoundsFrom requested bytes line start (index + front.length) := by
  induction front generalizing index with
  | nil => rfl
  | cons byte front ih =>
    obtain ⟨hbyte, hfront⟩ := forall_mem_cons.mp hfront
    rw [cons_append, lineBoundsFrom, if_pos (Text.terminatorBytes_of_not_break hbyte _),
      ih hfront, length_cons]
    congr 1
    omega

theorem boundsOf_terminated {front terminator rest : List Char} (hfront : Text.Unbroken front)
    (hterminator : Text.Terminates terminator rest) (start k : ℕ) :
    boundsOf (front ++ terminator ++ rest) start (k + 1)
      = boundsOf rest (start + utf8Length front + utf8Length terminator) k := by
  have hlength : utf8Length (lineStart (front ++ terminator ++ rest) (k + 1))
      = utf8Length front + utf8Length terminator + utf8Length (lineStart rest k) := by
    rw [Text.lineStart_terminated hfront hterminator]
    exact Text.measure_append.trans (congrArg (· + _) Text.measure_append)
  rw [boundsOf, Text.lines_terminated hfront hterminator, getElem?_cons_succ, boundsOf]
  simp only [hlength, Nat.add_assoc]

variable {requested start offset relative k j : ℕ}

/-- The scan from the start of a line finds the bounds of the requested one. -/
theorem lineBoundsFrom_eq (text : List Char) {line : ℕ} (hle : line ≤ requested)
    (hlt : line < 2 ^ 32) : lineBoundsFrom requested (Text.encode text) line start start
      = if requested < 2 ^ 32 then boundsOf text start (requested - line) else none := by
  induction text using Text.lines_induction generalizing line start with
  | last front hfront =>
    have hskip := lineBoundsFrom_unbroken (fun _ h => Text.not_break_of_mem_encode hfront h) []
      requested line start start
    rw [append_nil] at hskip
    rw [hskip, lineBoundsFrom, boundsOf, Text.lines_unbroken hfront, Text.length_encode]
    by_cases heq : line = requested
    · subst heq
      rw [if_pos rfl, if_pos hlt, Nat.sub_self]
      simp [Text.Line.full, utf8Length, Text.measure]
    · rw [if_neg heq, getElem?_eq_none (by simp; omega), map_none, ite_self]
  | line front terminator rest hfront hterminator ih =>
    have hwidth := Text.terminatorBytes_encode hterminator
    have hpos : Text.measure Char.utf8Size terminator ≠ 0 :=
      mt (Text.measure_eq_zero Text.positive_utf8Size).mp hterminator.ne_nil
    rw [append_assoc, Text.encode_append, lineBoundsFrom_unbroken
      (fun _ h => Text.not_break_of_mem_encode hfront h), Text.length_encode, ← append_assoc]
    cases hbytes : Text.encode (terminator ++ rest) with
    | nil =>
      rw [hbytes] at hwidth
      exact absurd hwidth.symm hpos
    | cons byte bytes =>
      have hrest : (byte :: bytes).drop (Text.measure Char.utf8Size terminator)
          = Text.encode rest := by
        rw [← hbytes, Text.encode_append, ← Text.length_encode, drop_left]
      rw [hbytes] at hwidth
      rw [lineBoundsFrom, hwidth, if_neg hpos, hrest]
      by_cases heq : line = requested
      · subst heq
        rw [if_pos rfl, if_pos hlt, Nat.sub_self, boundsOf,
          Text.lines_terminated hfront hterminator]
        simp [Text.Line.full, utf8Length, Text.measure, Nat.add_assoc]
      obtain ⟨d, hd⟩ := Nat.exists_eq_add_of_lt (Nat.lt_of_le_of_ne hle heq)
      rw [if_neg heq, show requested - line = d + 1 by omega,
        boundsOf_terminated hfront hterminator]
      split_ifs with hlast hrequested hrequested
      · omega
      · rfl
      · rw [ih (by omega) (by omega), if_pos hrequested, show requested - (line + 1) = d by omega]
        rfl
      · rw [ih (by omega) (by omega), if_neg hrequested]

theorem lineBounds_eq (text : String) (requested : ℕ) : lineBounds text requested
    = if requested < 2 ^ 32 then boundsOf text.toList 0 requested else none :=
  lineBoundsFrom_eq text.toList (Nat.zero_le requested) (by decide)

theorem slice_eq_some {text part : List Char} {stop : ℕ} :
    slice text start stop = some part ↔ ∃ pre suf, text = pre ++ part ++ suf
      ∧ utf8Length pre = start ∧ utf8Length (pre ++ part) = stop := by
  have happend (pre : List Char) : utf8Length (pre ++ part) = utf8Length pre + utf8Length part :=
    Text.measure_append
  unfold slice
  constructor
  · intro h
    rw [ite_none_right_eq_some] at h
    obtain ⟨hle, h⟩ := h
    simp only [bind_eq_bind, bind_eq_some_iff, Text.split_eq_some, Prod.exists,
      Option.some.injEq] at h
    obtain ⟨pre, rest, ⟨rfl, hpre⟩, _, suf, ⟨rfl, hpart⟩, rfl⟩ := h
    change utf8Length pre = start at hpre
    change utf8Length _ = _ at hpart
    exact ⟨pre, suf, (append_assoc ..).symm, hpre, by rw [happend]; omega⟩
  · rintro ⟨pre, suf, rfl, rfl, rfl⟩
    rw [happend, if_pos (Nat.le_add_right _ _), Nat.add_sub_cancel_left, append_assoc]
    have hpre : Text.split (pre ++ (part ++ suf)) (utf8Length pre) = some (pre, part ++ suf) :=
      Text.split_eq_some.mpr ⟨rfl, rfl⟩
    have hpart : Text.split (part ++ suf) (utf8Length part) = some (part, suf) :=
      Text.split_eq_some.mpr ⟨rfl, rfl⟩
    rw [hpre, bind_eq_bind, bind_some]
    dsimp only
    rw [hpart]
    rfl

theorem unitsToByteFrom_eq_some {width : Char → ℕ} (hwidth : Text.Positive width)
    (text : List Char) {units : ℕ} (hunits : units < 2 ^ 32) :
    unitsToByteFrom width requested text offset units = some relative ↔ requested < 2 ^ 32
      ∧ ∃ pre, pre <+: text ∧ units + Text.measure width pre = requested
        ∧ offset + utf8Length pre = relative := by
  induction text generalizing offset units with
  | nil =>
    rw [unitsToByteFrom, ite_none_right_eq_some]
    constructor
    · rintro ⟨rfl, ⟨⟩⟩
      exact ⟨hunits, [], prefix_rfl, rfl, rfl⟩
    · rintro ⟨-, pre, hpre, rfl, rfl⟩
      obtain rfl := prefix_nil.mp hpre
      exact ⟨rfl, rfl⟩
  | cons c text ih =>
    have hc := hwidth c
    have hlength (pre : List Char) : utf8Length (c :: pre) = c.utf8Size + utf8Length pre :=
      Text.measure_cons c
    rw [unitsToByteFrom]
    by_cases heq : units = requested
    · subst heq
      rw [if_pos rfl]
      constructor
      · rintro ⟨⟩
        exact ⟨hunits, [], nil_prefix, rfl, rfl⟩
      · rintro ⟨-, pre, -, hpre, rfl⟩
        rw [(Text.measure_eq_zero hwidth).mp (show Text.measure width pre = 0 by omega)]
        rfl
    rw [if_neg heq]
    dsimp only
    -- the prefix takes the scalar value in whole
    have hcons : (∃ pre, pre <+: c :: text ∧ units + Text.measure width pre = requested
        ∧ offset + utf8Length pre = relative) ↔ ∃ pre, pre <+: text
          ∧ units + width c + Text.measure width pre = requested
          ∧ offset + c.utf8Size + utf8Length pre = relative := by
      constructor
      · rintro ⟨pre, hpre, hrequested, hrelative⟩
        obtain rfl | ⟨pre, rfl, htail⟩ := prefix_cons_iff.mp hpre
        · exact absurd hrequested heq
        · rw [Text.measure_cons] at hrequested
          rw [hlength] at hrelative
          exact ⟨pre, htail, by omega, by omega⟩
      · rintro ⟨pre, hpre, hrequested, hrelative⟩
        refine ⟨c :: pre, cons_prefix_cons.mpr ⟨rfl, hpre⟩, ?_, ?_⟩
        · rw [Text.measure_cons]
          omega
        · rw [hlength]
          omega
    rw [hcons]
    split_ifs with hlarge hinside
    · refine iff_of_false nofun ?_
      rintro ⟨hrequested, pre, -, hpre, -⟩
      omega
    · refine iff_of_false nofun ?_
      rintro ⟨-, pre, -, hpre, -⟩
      omega
    · exact ih (by omega)

/-! ### Both translations -/

/-- The units of an encoding. -/
def PositionEncoding.width : PositionEncoding → Char → ℕ
  | .utf8 => Char.utf8Size
  | .utf16 => utf16Width
  | .utf32 => fun _ => 1

theorem PositionEncoding.positive_width (encoding : PositionEncoding) :
    Text.Positive encoding.width := by
  cases encoding with
  | utf8 => exact Text.positive_utf8Size
  | utf16 => exact positive_utf16Width
  | utf32 => exact fun _ => Nat.one_pos

theorem PositionEncoding.width_le (encoding : PositionEncoding) (c : Char) :
    encoding.width c ≤ c.utf8Size := by
  cases encoding with
  | utf8 => exact le_rfl
  | utf16 => exact utf16Width_le c
  | utf32 => exact c.utf8Size_pos

/-- The position of an offset: a line, and the units of a prefix of its content. -/
def Stands (text : List Char) (encoding : PositionEncoding) (position : Position) (offset : ℕ) :
    Prop :=
  ∃ column line, Place text position.line column line
    ∧ position.character = Text.measure encoding.width column
    ∧ offset = utf8Length (lineStart text position.line ++ column)

variable {encoding : PositionEncoding} {line : Text.Line} {position : Position} {text : String}

theorem relativeByte_eq_some {line : List Char} {character : ℕ} (hlt : relative < 2 ^ 32) :
    relativeByte line character encoding = some relative ↔ ∃ column, column <+: line
      ∧ Text.measure encoding.width column = character ∧ utf8Length column = relative := by
  have hunits {width : Char → ℕ} (hwidth : Text.Positive width)
      (hle : ∀ c, width c ≤ c.utf8Size) : unitsToByte line character width = some relative
        ↔ ∃ column, column <+: line ∧ Text.measure width column = character
          ∧ utf8Length column = relative := by
    rw [unitsToByte, unitsToByteFrom_eq_some hwidth line (by decide)]
    simp only [Nat.zero_add]
    refine and_iff_right_of_imp ?_
    rintro ⟨column, -, rfl, rfl⟩
    exact (Text.measure_le_measure hle column).trans_lt hlt
  cases encoding with
  | utf8 =>
    rw [relativeByte, ite_none_right_eq_some, isCharBoundary_iff]
    constructor
    · rintro ⟨⟨-, column, hcolumn, rfl⟩, ⟨⟩⟩
      exact ⟨column, hcolumn, rfl, rfl⟩
    · rintro ⟨column, hcolumn, rfl, rfl⟩
      have hle := (Text.prefix_iff_measure_le Text.positive_utf8Size hcolumn prefix_rfl).mp
        hcolumn
      exact ⟨⟨hle, column, hcolumn, rfl⟩, rfl⟩
  | utf16 => exact hunits positive_utf16Width utf16Width_le
  | utf32 => exact hunits (fun _ => Nat.one_pos) Char.utf8Size_pos

theorem characterOf_eq_some {pre : List Char} (hlt : utf8Length pre < 2 ^ 32) :
    characterOf pre encoding = some (Text.measure encoding.width pre) := by
  have hfits {n : ℕ} (hle : n ≤ utf8Length pre) : checked32 n = some n :=
    if_pos (hle.trans_lt hlt)
  have hle := Text.measure_le_measure encoding.width_le pre
  cases encoding with
  | utf8 => exact hfits le_rfl
  | utf16 => exact hfits hle
  | utf32 =>
    have hone : Text.measure (fun _ => 1) pre = pre.length := by simp [Text.measure]
    exact (hfits (hone ▸ hle)).trans (congrArg some hone.symm)


theorem line_le_utf8Length {text : List Char}
    (h : (lines text)[k]? = some line) : k ≤ utf8Length (lineStart text k) :=
  (Text.le_length_lineStart (List.getElem?_eq_some_iff.mp h).1).trans
    (Text.length_le_measure Text.positive_utf8Size _)

/-- A position is translated to the offset that it stands for. -/
theorem positionToByte_eq_some
    : positionToByte text position encoding = some offset ↔
      offset < 2 ^ 32 ∧ Stands text.toList encoding position offset := by
  have happend (pre column : List Char) :
      utf8Length (pre ++ column) = utf8Length pre + utf8Length column := Text.measure_append
  have hchecked {n : ℕ} : checked32 n = some offset ↔ n < 2 ^ 32 ∧ n = offset := by
    rw [checked32, ite_none_right_eq_some, Option.some.injEq]
  have hcontent {line : Text.Line} (hline : (lines text.toList)[position.line]? = some line) :
      slice text.toList (utf8Length (lineStart text.toList position.line))
        (utf8Length (lineStart text.toList position.line) + utf8Length line.content)
        = some line.content := by
    have hplace : Place text.toList position.line line.content line := ⟨hline, prefix_rfl⟩
    obtain ⟨suf, hsuf⟩ := hplace.prefix
    exact slice_eq_some.mpr ⟨_, suf, hsuf.symm, rfl, happend _ _⟩
  unfold positionToByte
  rw [lineBounds_eq]
  constructor
  · intro h
    simp only [bind_eq_bind, bind_eq_some_iff, ite_none_right_eq_some,
      boundsOf, map_eq_some_iff, hchecked] at h
    obtain ⟨_, ⟨-, line, hline, rfl⟩, content, hslice, relative, hrelative, hlt, rfl⟩ := h
    simp only [Nat.zero_add] at hslice hrelative hlt ⊢
    rw [hcontent hline] at hslice
    cases hslice
    obtain ⟨column, hcolumn, hcharacter, rfl⟩ := (relativeByte_eq_some (by omega)).mp hrelative
    exact ⟨hlt, column, line, ⟨hline, hcolumn⟩, hcharacter.symm, (happend _ _).symm⟩
  · rintro ⟨hlt, column, line, ⟨hline, hcolumn⟩, hcharacter, rfl⟩
    rw [happend] at hlt ⊢
    have hrequested : position.line < 2 ^ 32 :=
      (line_le_utf8Length hline).trans_lt ((Nat.le_add_right _ _).trans_lt hlt)
    rw [if_pos hrequested, boundsOf, hline]
    simp only [map_some, bind_eq_bind, bind_some, Nat.zero_add, hcontent hline]
    rw [(relativeByte_eq_some (by omega)).mpr ⟨column, hcolumn, hcharacter.symm, rfl⟩,
      bind_some]
    exact if_pos hlt

/-- From any line up to its own on, an offset is found on its line. -/
theorem byteToPositionFrom_place {column : List Char} (hplace : Place text.toList k column line)
    (hlt : utf8Length (lineStart text.toList k ++ column) < 2 ^ 32) (hj : j ≤ k) :
    byteToPositionFrom text (utf8Length (lineStart text.toList k ++ column)) encoding j
      = some ⟨k, Text.measure encoding.width column⟩ := by
  have happend (pre column : List Char) :
      utf8Length (pre ++ column) = utf8Length pre + utf8Length column := Text.measure_append
  have hk := line_le_utf8Length hplace.getElem?
  have hstart := happend (lineStart text.toList k) column
  induction hleft : k - j generalizing j with
  | zero =>
    obtain rfl : j = k := by omega
    have hcontent : utf8Length column ≤ utf8Length line.content :=
      (Text.prefix_iff_measure_le Text.positive_utf8Size hplace.isPrefix prefix_rfl).mp
        hplace.isPrefix
    obtain ⟨suf, hsuf⟩ := hplace.prefix
    have hslice : slice text.toList (utf8Length (lineStart text.toList j))
        (utf8Length (lineStart text.toList j ++ column)) = some column :=
      slice_eq_some.mpr ⟨_, suf, hsuf.symm, rfl, rfl⟩
    rw [byteToPositionFrom, lineBounds_eq, if_pos (by omega), boundsOf, hplace.getElem?]
    simp only [map_some, Nat.zero_add]
    rw [if_pos (by omega), hslice]
    simp [characterOf_eq_some (show utf8Length column < 2 ^ 32 by omega)]
  | succ left ih =>
    -- the offset is behind this line
    have hlength := (List.getElem?_eq_some_iff.mp hplace.getElem?).1
    have hline := getElem?_eq_getElem (show j < (lines text.toList).length by omega)
    have hfull : utf8Length (lineStart text.toList (j + 1)) ≤ utf8Length (lineStart text.toList k)
        := (Text.prefix_iff_measure_le Text.positive_utf8Size (Text.lineStart_isPrefix _)
          (Text.lineStart_isPrefix _)).mp (Text.lineStart_prefix_lineStart (by omega))
    rw [Text.lineStart_succ hline, happend] at hfull
    have hterminator : utf8Length (lines text.toList)[j].full
        = utf8Length (lines text.toList)[j].content
          + utf8Length (lines text.toList)[j].terminator := happend _ _
    have hpos : utf8Length (lines text.toList)[j].terminator ≠ 0 :=
      mt (Text.measure_eq_zero Text.positive_utf8Size).mp
        (Text.terminator_ne_nil hline (by omega))
    rw [byteToPositionFrom, lineBounds_eq, if_pos (by omega), boundsOf, hline]
    simp only [map_some, Nat.zero_add]
    rw [if_neg (by omega), if_neg (by omega), if_pos (by omega)]
    exact ih (by omega) (by omega)

theorem stands_of_byteToPositionFrom (hlt : offset < 2 ^ 32)
    (h : byteToPositionFrom text offset encoding j = some position) :
    Stands text.toList encoding position offset := by
  fun_induction byteToPositionFrom text offset encoding j with
  | case1 => cases h
  | case2 j bounds hbounds hle =>
    rw [lineBounds_eq, ite_none_right_eq_some, boundsOf, map_eq_some_iff] at hbounds
    obtain ⟨-, line, hline, rfl⟩ := hbounds
    simp only [bind_eq_bind, bind_eq_some_iff, slice_eq_some, Option.some.injEq,
      Nat.zero_add] at h hle
    obtain ⟨column, ⟨pre, suf, htext, hpre, rfl⟩, character, hcharacter, rfl⟩ := h
    have hprefix : pre ++ column <+: text.toList := ⟨suf, htext.symm⟩
    -- the slice starts where the line does
    obtain rfl : pre = lineStart text.toList j := Text.eq_of_measure_eq Text.positive_utf8Size
      ((prefix_append _ _).trans hprefix) (Text.lineStart_isPrefix j) hpre
    have hplace : Place text.toList j line.content line := ⟨hline, prefix_rfl⟩
    have hcolumn : column <+: line.content := by
      refine (prefix_append_right_inj (lineStart text.toList j)).mp
        ((Text.prefix_iff_measure_le Text.positive_utf8Size hprefix hplace.prefix).mpr ?_)
      exact hle.trans_eq Text.measure_append.symm
    have hfits : utf8Length column < 2 ^ 32 := by
      refine lt_of_le_of_lt ?_ hlt
      exact (Nat.le_add_left _ _).trans_eq Text.measure_append.symm
    rw [characterOf_eq_some hfits] at hcharacter
    exact ⟨column, line, ⟨hline, hcolumn⟩, (Option.some.inj hcharacter).symm, rfl⟩
  | case3 => cases h
  | case4 j bounds hbounds hle hnext hroom ih => exact ih h
  | case5 => cases h

theorem byteToPosition_eq_some (hlt : offset < 2 ^ 32) : byteToPosition text offset encoding
      = some position ↔ Stands text.toList encoding position offset := by
  constructor
  · intro h
    unfold byteToPosition at h
    rw [ite_none_left_eq_some] at h
    exact stands_of_byteToPositionFrom hlt h.2
  · rintro ⟨column, line, hplace, hcharacter, rfl⟩
    have hboundary : isCharBoundary text.toList
        (utf8Length (lineStart text.toList position.line ++ column)) = true :=
      isCharBoundary_iff.mpr ⟨_, hplace.prefix, rfl⟩
    have hle : utf8Length (lineStart text.toList position.line ++ column)
        ≤ utf8Length text.toList :=
      (Text.prefix_iff_measure_le Text.positive_utf8Size hplace.prefix prefix_rfl).mp
        hplace.prefix
    unfold byteToPosition
    rw [if_neg (not_or.mpr ⟨Nat.not_lt.mpr hle, not_not.mpr hboundary⟩),
      byteToPositionFrom_place hplace hlt (Nat.zero_le _), ← hcharacter]

/-- Positions and offsets are translated into each other. An offset has a position if and only if it
is a boundary of scalar values that is not between a CR and its LF; a position has an offset if and
only if it is the position of that offset; and offsets stand in the order of their positions. -/
theorem positions_inverse (text : String) (encoding : PositionEncoding) :
    (∀ offset : UInt32, (∃ position, byteToPosition text offset.toNat encoding = some position) ↔
      ∃ pre suf, text.toList = pre ++ suf ∧ utf8Length pre = offset.toNat
        ∧ ¬Text.InsideCrlf pre suf)
    ∧ (∀ position offset, positionToByte text position encoding = some offset ↔
      offset < 2 ^ 32 ∧ byteToPosition text offset encoding = some position)
    ∧ ∀ (offset offset' : UInt32) (position position' : Position),
      byteToPosition text offset.toNat encoding = some position →
      byteToPosition text offset'.toNat encoding = some position' →
      (offset < offset' ↔ position.line < position'.line
        ∨ position.line = position'.line ∧ position.character < position'.character) := by
  refine ⟨fun offset => ?_, fun position offset => ?_, fun offset offset' position position' => ?_⟩
  · simp only [byteToPosition_eq_some offset.toNat_lt]
    constructor
    · rintro ⟨position, column, line, hplace, -, hoffset⟩
      obtain ⟨suf, hsuf⟩ := hplace.prefix
      exact ⟨_, suf, hsuf.symm, hoffset.symm,
        (Text.exists_place hsuf.symm).mp ⟨_, column, line, hplace, rfl⟩⟩
    · rintro ⟨pre, suf, htext, hoffset, hinside⟩
      obtain ⟨k, column, line, hplace, rfl⟩ := (Text.exists_place htext).mpr hinside
      exact ⟨⟨k, _⟩, column, line, hplace, rfl, hoffset.symm⟩
  · rw [positionToByte_eq_some]
    exact and_congr_right fun hlt => (byteToPosition_eq_some hlt).symm
  · rw [byteToPosition_eq_some offset.toNat_lt, byteToPosition_eq_some offset'.toNat_lt]
    rintro ⟨column, line, hplace, hcharacter, hoffset⟩
      ⟨column', line', hplace', hcharacter', hoffset'⟩
    have hone (text : List Char) : Text.measure (fun _ => 1) text = text.length := by
      simp [Text.measure]
    calc offset < offset'
        ↔ utf8Length (lineStart text.toList position.line ++ column)
          < utf8Length (lineStart text.toList position'.line ++ column') := by
          rw [← hoffset, ← hoffset', UInt32.lt_iff_toNat_lt]
      _ ↔ (lineStart text.toList position.line ++ column).length
          < (lineStart text.toList position'.line ++ column').length := by
          rw [← hone, ← hone]
          exact Text.measure_lt_iff Text.positive_utf8Size (fun _ => Nat.one_pos) hplace.prefix
            hplace'.prefix
      _ ↔ position.line < position'.line
          ∨ position.line = position'.line ∧ column.length < column'.length :=
          Text.place_lt hplace hplace'
      _ ↔ position.line < position'.line
          ∨ position.line = position'.line ∧ position.character < position'.character := by
          refine or_congr_right (and_congr_right fun heq => ?_)
          have hline : line = line' :=
            Option.some.inj ((heq ▸ hplace.getElem?).symm.trans hplace'.getElem?)
          subst hline
          rw [hcharacter, hcharacter', ← hone, ← hone]
          exact Text.measure_lt_iff (fun _ => Nat.one_pos) encoding.positive_width hplace.isPrefix
            hplace'.isPrefix

/-- An offset in front of a CRLF and one behind it, in their order. -/
theorem positions_inverse_crlf : ∃ position position',
    byteToPosition "é\r\nx" 2 .utf16 = some position
    ∧ byteToPosition "é\r\nx" 4 .utf16 = some position'
    ∧ (position.line < position'.line
      ∨ position.line = position'.line ∧ position.character < position'.character) := by
  obtain ⟨hdefined, -, hordered⟩ := positions_inverse "é\r\nx" .utf16
  obtain ⟨position, hposition⟩ := (hdefined 2).mpr
    ⟨['é'], ['\r', '\n', 'x'], by decide, by decide, by simp [Text.InsideCrlf]⟩
  obtain ⟨position', hposition'⟩ := (hdefined 4).mpr
    ⟨['é', '\r', '\n'], ['x'], by decide, by decide, by simp [Text.InsideCrlf]⟩
  exact ⟨position, position', hposition, hposition',
    (hordered 2 4 position position' hposition hposition').mp (by decide)⟩

end Zryna.LanguageServer
