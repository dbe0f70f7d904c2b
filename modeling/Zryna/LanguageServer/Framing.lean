import Zryna.Foundation.Checked
import Zryna.Foundation.HeaderText

/-!
# Frames of the language server

`writeFrame` puts a `Content-Length` header before a payload and `readFrame` takes one frame off the
front of a byte stream, line by line until an empty line and then by count.

`readHeader_sound` is what the header loop accepts, as lines and their terminators. Reading what was
written never looks inside a payload: the header that is written is two lines long, and the payload
behind it is counted.
-/

namespace Zryna.LanguageServer.Framing

open HeaderText List Option

def maxLspMessageBytes : ℕ := 16 * 1024 * 1024
def maxHeaderBytes : ℕ := 8 * 1024

/-- Failures other than those of the underlying stream. -/
inductive FrameError where
  /-- Header syntax, inventory, or content length was invalid. -/
  | header
  /-- The declared payload exceeds the admission limit. -/
  | limit
  /-- The stream ended before the declared payload was complete. -/
  | truncated
deriving DecidableEq

/-! ### The code -/

/-- The bytes up to and including the first terminator, or all of them, and what is left. -/
def readUntil (terminator : UInt8) (input : List UInt8) : List UInt8 × List UInt8 :=
  match input with
  | [] => ([], [])
  | byte :: input =>
    if byte = terminator then ([byte], input)
    else
      let (line, rest) := readUntil terminator input
      (byte :: line, rest)

/-- What the header lines have said so far. -/
structure Header where
  bytes : ℕ
  contentLength : Option ℕ
  contentType : Bool
deriving DecidableEq

def headerField (header : Header) (line : List UInt8) : Except FrameError Header :=
  if Utf8.valid (line.map UInt8.toNat) = false then .error .header
  else match splitOnce colon line with
  | none => .error .header
  | some (name, value) =>
    let value := trim (fun byte => byte = space || byte = tab) value
    if eqIgnoreCase name (ascii "Content-Length") then
      if header.contentLength.isSome || value.isEmpty || !value.all isDigit then .error .header
      else if decimal value ≥ 2 ^ 64 then .error .limit
      else if decimal value > maxLspMessageBytes then .error .limit
      else .ok { header with contentLength := some (decimal value) }
    else if eqIgnoreCase name (ascii "Content-Type") then
      if header.contentType
          || !eqIgnoreCase value (ascii "application/vscode-jsonrpc; charset=utf-8") then
        .error .header
      else .ok { header with contentType := true }
    else .error .header

theorem readUntil_append (terminator : UInt8) (input : List UInt8) :
    (readUntil terminator input).1 ++ (readUntil terminator input).2 = input := by
  induction input with
  | nil => rfl
  | cons byte input ih =>
    rw [readUntil]
    split_ifs
    · rfl
    · exact congrArg (byte :: ·) ih

/-- Reads the lines of a header. There is none at the end of the stream. -/
def readHeader (header : Header) (input : List UInt8) :
    Except FrameError (Option (Header × List UInt8)) :=
  match _h : readUntil lf input with
  | ([], _) => if header.bytes = 0 then .ok none else .error .truncated
  | (first :: line, rest) =>
    let line := first :: line
    let bytes := header.bytes + line.length
    if bytes ≥ 2 ^ 64 then .error .limit
    else if bytes > maxHeaderBytes then .error .limit
    else if ¬crlf.isSuffixOf line then .error .header
    else
      let line := line.take (line.length - 2)
      if line.isEmpty then .ok (some ({ header with bytes }, rest))
      else
        match headerField { header with bytes } line with
        | .error error => .error error
        | .ok header => readHeader header rest
termination_by input.length
decreasing_by
  have := congrArg List.length (readUntil_append lf input)
  rw [_h] at this
  simp at this
  omega

/-- Reads one frame, and nothing at the end of the stream. -/
def readFrame (input : List UInt8) : Except FrameError (Option (List UInt8) × List UInt8) := do
  match ← readHeader ⟨0, none, false⟩ input with
  | none => .ok (none, [])
  | some (header, rest) =>
    match header.contentLength with
    | none => .error .header
    | some length =>
      if rest.length < length then .error .truncated
      else .ok (some (rest.take length), rest.drop length)

/-- Writes one canonical frame. -/
def writeFrame (payload : List UInt8) : Except FrameError (List UInt8) :=
  if payload.length > maxLspMessageBytes then .error .limit
  else .ok (ascii "Content-Length: " ++ digits payload.length ++ crlf ++ crlf ++ payload)

/-- Reads frames one after the other. -/
def readFrames : ℕ → List UInt8 → Except FrameError (List (Option (List UInt8)))
  | 0, _ => .ok []
  | n + 1, input => do
    let (payload, rest) ← readFrame input
    let payloads ← readFrames n rest
    .ok (payload :: payloads)

/-! ### Lines -/

variable {terminator : UInt8} {input rest payload : List UInt8} {header header' : Header}

theorem readUntil_eq {line : List UInt8} (h : terminator ∉ line) (rest : List UInt8) :
    readUntil terminator (line ++ terminator :: rest) = (line ++ [terminator], rest) := by
  induction line with
  | nil => exact if_pos rfl
  | cons byte line ih =>
    obtain ⟨hbyte, hline⟩ := not_or.mp (mt mem_cons.mpr h)
    rw [cons_append, readUntil, if_neg (Ne.symm hbyte), ih hline]
    rfl

/-- A line holds no terminator but its last byte. -/
theorem readUntil_line {line : List UInt8} {last : UInt8}
    (h : (readUntil terminator input).1 = line ++ [last]) : terminator ∉ line := by
  induction input generalizing line with
  | nil => exact absurd h.symm (by simp [readUntil])
  | cons byte input ih =>
    rw [readUntil] at h
    split_ifs at h with hbyte
    · obtain rfl : line = [] := by
        cases line with
        | nil => rfl
        | cons byte' line => simp at h
      exact not_mem_nil
    · cases line with
      | nil => exact not_mem_nil
      | cons byte' line =>
        obtain ⟨rfl, hline⟩ := List.cons.inj h
        rw [mem_cons, not_or]
        exact ⟨Ne.symm hbyte, ih hline⟩

/-! ### What is accepted -/

/-- What one field adds to the declared length. -/
theorem headerField_sound {line : List UInt8} (h : headerField header line = .ok header') :
    header'.bytes = header.bytes
      ∧ header.contentLength.toList
          ++ (valueOf (ascii "Content-Length") line).toList.map decimal
        = header'.contentLength.toList
      ∧ ∀ value ∈ valueOf (ascii "Content-Length") line,
        value ≠ [] ∧ value.all isDigit = true := by
  rw [headerField, Checked.ite_error_eq_ok] at h
  obtain ⟨-, h⟩ := h
  rw [valueOf]
  cases hsplit : splitOnce colon line with
  | none =>
    rw [hsplit] at h
    cases h
  | some field =>
    obtain ⟨name, value⟩ := field
    rw [hsplit] at h
    dsimp only at h
    rw [bind_some]
    dsimp only
    split_ifs at h ⊢ with hname hvalue hoverflow hlarge hname' hvalue'
    · cases h
      rw [Bool.not_eq_true, Bool.or_eq_false_iff, Bool.or_eq_false_iff] at hvalue
      obtain ⟨⟨hlength, hempty⟩, hdigits⟩ := hvalue
      rw [isSome_eq_false_iff, isNone_iff_eq_none] at hlength
      refine ⟨rfl, by rw [hlength]; rfl, ?_⟩
      rintro _ ⟨⟩
      exact ⟨isEmpty_eq_false_iff.mp hempty, by simpa using hdigits⟩
    · cases h
      exact ⟨rfl, append_nil _, nofun⟩

/-- A header that was read is a block of lines. -/
structure Reads (header : Header) (lines : List (List UInt8)) (header' : Header) : Prop where
  whole : ∀ line ∈ lines, line ≠ [] ∧ lf ∉ line
  bytes : header.bytes + (block lines).length = header'.bytes
  max : header'.bytes ≤ maxHeaderBytes
  lengths : header.contentLength.toList
      ++ (lines.filterMap (valueOf (ascii "Content-Length"))).map decimal
    = header'.contentLength.toList
  digits : ∀ value ∈ lines.filterMap (valueOf (ascii "Content-Length")),
    value ≠ [] ∧ value.all isDigit = true

theorem content_eq {line : List UInt8} (hread : readUntil lf input = (line, rest))
    (h : crlf.isSuffixOf line = true) :
    input = line.take (line.length - 2) ++ crlf ++ rest ∧ lf ∉ line.take (line.length - 2)
      ∧ line.length = (line.take (line.length - 2)).length + 2 := by
  obtain ⟨content, rfl⟩ := isSuffixOf_iff_suffix.mp h
  have htake : (content ++ crlf).take ((content ++ crlf).length - 2) = content := by
    rw [length_append]
    exact take_left
  have hinput := readUntil_append lf input
  have hlast : (readUntil lf input).1 = (content ++ [cr]) ++ [lf] := by
    rw [hread, append_assoc]
    rfl
  rw [hread] at hinput
  rw [htake]
  refine ⟨hinput.symm, fun hmem => ?_, length_append⟩
  exact readUntil_line hlast (mem_append_left _ hmem)

theorem readHeader_sound (h : readHeader header input = .ok (some (header', rest))) :
    ∃ lines, input = block lines ++ rest ∧ Reads header lines header' := by
  fun_induction readHeader header input with
  | case1 | case2 | case3 | case4 | case5 => cases h
  | case6 header input first line rest' hread line' bytes _ hmax hsuffix line hempty =>
    -- the empty line ends the header
    obtain ⟨rfl, rfl⟩ := Prod.mk.inj (Option.some.inj (Except.ok.inj h))
    obtain ⟨hinput, -, hlength⟩ := content_eq hread (not_not.mp hsuffix)
    have hnil : line = [] := isEmpty_iff.mp hempty
    change input = line ++ crlf ++ rest' at hinput
    change line'.length = line.length + 2 at hlength
    rw [hnil] at hinput hlength
    exact ⟨[], hinput, nofun, congrArg (header.bytes + ·) hlength.symm, not_lt.mp hmax,
      append_nil _, nofun⟩
  | case7 => cases h
  | case8 header input first line rest' hread line' bytes _ hmax hsuffix line hempty header''
      hfield ih =>
    obtain ⟨lines, rfl, hreads⟩ := ih h
    obtain ⟨hinput, hlf, hlength⟩ := content_eq hread (not_not.mp hsuffix)
    obtain ⟨hbytes, hlengths, hdigits⟩ := headerField_sound hfield
    have hne : line ≠ [] := mt isEmpty_iff.mpr hempty
    refine ⟨line :: lines, ?_, ?_, ?_, hreads.max, ?_, ?_⟩
    · rw [block_cons, append_assoc]
      exact hinput
    · exact forall_mem_cons.mpr ⟨⟨hne, hlf⟩, hreads.whole⟩
    · rw [← hreads.bytes, hbytes, block_cons, length_append, length_append]
      change line'.length = line.length + 2 at hlength
      change _ = header.bytes + line'.length + _
      rw [hlength, ← Nat.add_assoc]
      rfl
    · rw [← hreads.lengths, ← hlengths, filterMap_cons, append_assoc]
      cases valueOf (ascii "Content-Length") line <;> rfl
    · intro value hmem
      rw [filterMap_cons] at hmem
      cases hvalue : valueOf (ascii "Content-Length") line with
      | none =>
        rw [hvalue] at hmem
        exact hreads.digits value hmem
      | some value' =>
        rw [hvalue] at hmem
        rcases mem_cons.mp hmem with rfl | hmem
        · exact hdigits value hvalue
        · exact hreads.digits value hmem

/-- A payload stands behind a header with one content length, and has this length. -/
theorem readFrame_sound (h : readFrame input = .ok (some payload, rest)) :
    ∃ lines value, input = block lines ++ payload ++ rest
      ∧ (block lines).length ≤ maxHeaderBytes
      ∧ (∀ line ∈ lines, line ≠ [] ∧ lf ∉ line)
      ∧ lines.filterMap (valueOf (ascii "Content-Length")) = [value]
      ∧ value ≠ [] ∧ value.all isDigit = true ∧ decimal value = payload.length := by
  rw [readFrame, Checked.bind_eq_ok] at h
  obtain ⟨_ | ⟨header, rest'⟩, hheader, h⟩ := h
  · cases h
  obtain ⟨lines, rfl, hreads⟩ := readHeader_sound hheader
  dsimp only at h
  cases hlength : header.contentLength with
  | none =>
    rw [hlength] at h
    cases h
  | some length =>
    rw [hlength] at h
    dsimp only at h
    rw [Checked.ite_error_eq_ok, Except.ok.injEq, Prod.mk.injEq] at h
    obtain ⟨hle, hpayload, rfl⟩ := h
    cases hpayload
    have hlengths := hreads.lengths
    rw [hlength, toList_none, nil_append, toList_some] at hlengths
    obtain ⟨value, hvalues, hvalue⟩ := map_eq_singleton_iff.mp hlengths
    obtain ⟨hne, hdigits⟩ := hreads.digits value (by rw [hvalues]; exact mem_singleton_self _)
    refine ⟨lines, value, ?_, ?_, hreads.whole, hvalues, hne, hdigits, ?_⟩
    · rw [append_assoc, take_append_drop]
    · have := hreads.bytes
      have := hreads.max
      dsimp only at *
      omega
    · rw [hvalue, length_take, Nat.min_eq_left (not_lt.mp hle)]

/-! ### What is written -/

theorem readHeader_line {line : List UInt8} (hlf : lf ∉ line)
    (hmax : header.bytes + (line.length + 2) ≤ maxHeaderBytes) (rest : List UInt8) :
    readHeader header (line ++ crlf ++ rest)
      = if line.isEmpty then
          .ok (some ({ header with bytes := header.bytes + (line.length + 2) }, rest))
        else match headerField { header with bytes := header.bytes + (line.length + 2) } line with
          | .error error => .error error
          | .ok header => readHeader header rest := by
  have hread : readUntil lf (line ++ crlf ++ rest) = (line ++ crlf, rest) := by
    have hline : lf ∉ line ++ [cr] := by
      rw [mem_append, not_or]
      exact ⟨hlf, by decide⟩
    have := readUntil_eq hline rest
    rw [append_assoc, append_assoc] at this
    rw [append_assoc]
    exact this
  have hlength : (line ++ crlf).length = line.length + 2 := length_append
  have htake : (line ++ crlf).take ((line ++ crlf).length - 2) = line := by
    rw [hlength]
    exact take_left
  rw [readHeader]
  split
  · next h =>
    rw [hread] at h
    exact absurd (Prod.mk.inj h).1 (by simp)
  · next first line' rest' h =>
    rw [hread] at h
    obtain ⟨hline, rfl⟩ := Prod.mk.inj h
    have hsmall : ¬header.bytes + (line.length + 2) ≥ 2 ^ 64 := by
      rw [maxHeaderBytes] at hmax
      omega
    dsimp only
    rw [← hline, hlength, if_neg hsmall, if_neg hmax.not_gt,
      if_neg (not_not.mpr (isSuffixOf_iff_suffix.mpr (suffix_append _ _))), ← hlength,
      htake]

theorem lf_notMem_digits (n : ℕ) : lf ∉ digits n := fun h => by
  have := isDigit_of_mem_digits h
  revert this
  decide

theorem headerField_written {n : ℕ} (hnone : header.contentLength = none)
    (h : n ≤ maxLspMessageBytes) :
    headerField header (ascii "Content-Length: " ++ digits n)
      = .ok { header with contentLength := some n } := by
  have hvalid : Utf8.valid ((ascii "Content-Length: " ++ digits n).map UInt8.toNat) = true := by
    refine valid_ascii fun byte hmem => ?_
    rcases mem_append.mp hmem with hmem | hmem
    · have : (ascii "Content-Length: ").all (· ≤ 0x7f) = true := by decide
      exact of_decide_eq_true (all_eq_true.mp this byte hmem)
    · have hbyte := isDigit_of_mem_digits hmem
      rw [isDigit, Bool.and_eq_true, decide_eq_true_eq, decide_eq_true_eq] at hbyte
      exact UInt8.le_trans hbyte.2 (by decide)
  have hsplit : splitOnce colon (ascii "Content-Length: " ++ digits n)
      = some (ascii "Content-Length", space :: digits n) :=
    splitOnce_eq_some.mpr ⟨rfl, by decide⟩
  have htrim : trim (fun byte => byte = space || byte = tab) (space :: digits n) = digits n := by
    rw [trim_cons (by decide)]
    refine trim_eq_self fun byte hmem => ?_
    have hne : ∀ other, isDigit other = false → byte ≠ other := by
      rintro other hother rfl
      cases hother.symm.trans (isDigit_of_mem_digits hmem)
    rw [decide_eq_false (hne space (by decide)), decide_eq_false (hne tab (by decide))]
    rfl
  have hvalue : (header.contentLength.isSome || (digits n).isEmpty || !(digits n).all isDigit)
      = false := by
    rw [hnone, isEmpty_eq_false_iff.mpr (digits_ne_nil n),
      all_eq_true.mpr fun _ => isDigit_of_mem_digits]
    rfl
  have hoverflow : ¬n ≥ 2 ^ 64 := by
    rw [maxLspMessageBytes] at h
    omega
  rw [headerField, hvalid, if_neg (by decide), hsplit]
  dsimp only
  rw [if_pos (eqIgnoreCase_refl _), htrim, hvalue, if_neg (by decide), decimal_digits,
    if_neg hoverflow, if_neg h.not_gt]

theorem readFrame_written (h : payload.length ≤ maxLspMessageBytes) (rest : List UInt8) :
    readFrame (ascii "Content-Length: " ++ digits payload.length ++ crlf ++ crlf ++ payload ++ rest)
      = .ok (some payload, rest) := by
  have hdigits : (digits payload.length).length ≤ 8 := by
    rw [digits, length_map, Nat.length_toDigits_le_iff (by decide) (by decide)]
    exact h.trans_lt (by decide)
  have hlength : (ascii "Content-Length: " ++ digits payload.length).length ≤ 24 := by
    rw [length_append]
    exact Nat.add_le_add_left hdigits 16
  have hlf : lf ∉ ascii "Content-Length: " ++ digits payload.length := by
    rw [mem_append, not_or]
    exact ⟨by decide, lf_notMem_digits _⟩
  have hne : (ascii "Content-Length: " ++ digits payload.length).isEmpty = false := rfl
  have hheader : readHeader ⟨0, none, false⟩
      (ascii "Content-Length: " ++ digits payload.length ++ crlf ++ (crlf ++ (payload ++ rest)))
        = .ok (some (⟨(ascii "Content-Length: " ++ digits payload.length).length + 4,
          some payload.length, false⟩, payload ++ rest)) := by
    rw [readHeader_line hlf (by rw [maxHeaderBytes]; dsimp only; omega), hne, if_neg (by decide),
      headerField_written rfl h]
    dsimp only
    rw [← nil_append (crlf ++ (payload ++ rest)), ← append_assoc,
      readHeader_line not_mem_nil (by rw [maxHeaderBytes, length_nil]; dsimp only; omega),
      isEmpty_nil, if_pos rfl, Nat.zero_add]
    rfl
  rw [append_assoc, append_assoc, readFrame, hheader]
  show (if (payload ++ rest).length < payload.length then _ else _) = _
  rw [if_neg (by rw [length_append]; exact (Nat.le_add_right _ _).not_gt), take_left,
    drop_left]

theorem readFrames_written {payloads : List (List UInt8)}
    (h : ∀ payload ∈ payloads, payload.length ≤ maxLspMessageBytes) :
    ∃ frames, payloads.mapM writeFrame = .ok frames
      ∧ readFrames (payloads.length + 1) frames.flatten = .ok (payloads.map some ++ [none]) := by
  induction payloads with
  | nil =>
    have hend : readFrame [] = .ok (none, []) := by
      rw [readFrame, readHeader]
      rfl
    refine ⟨[], rfl, ?_⟩
    show (readFrame [] >>= _) = _
    rw [hend]
    rfl
  | cons payload payloads ih =>
    obtain ⟨frames, hframes, hread⟩ := ih fun payload hmem => h payload (mem_cons_of_mem _ hmem)
    have hpayload := h payload mem_cons_self
    have hwrite : writeFrame payload = .ok
        (ascii "Content-Length: " ++ digits payload.length ++ crlf ++ crlf ++ payload) :=
      if_neg hpayload.not_gt
    refine ⟨(ascii "Content-Length: " ++ digits payload.length ++ crlf ++ crlf ++ payload) :: frames,
      ?_, ?_⟩
    · rw [mapM_cons, hwrite, hframes]
      rfl
    · rw [length_cons, readFrames, flatten_cons, readFrame_written hpayload]
      show (readFrames (payloads.length + 1) frames.flatten >>= _) = _
      rw [hread]
      rfl

/-- What was written is read back, whatever stands in the payloads, and a payload that is read
stands behind a header with one content length, which is its own. -/
theorem frames_exact :
    (∀ payloads : List (List UInt8), (∀ payload ∈ payloads, payload.length ≤ maxLspMessageBytes) →
      ∃ frames, payloads.mapM writeFrame = .ok frames
        ∧ readFrames (payloads.length + 1) frames.flatten = .ok (payloads.map some ++ [none]))
    ∧ ∀ input payload rest, readFrame input = .ok (some payload, rest) →
      ∃ lines value, input = block lines ++ payload ++ rest
        ∧ (block lines).length ≤ maxHeaderBytes
        ∧ (∀ line ∈ lines, line ≠ [] ∧ lf ∉ line)
        ∧ lines.filterMap (valueOf (ascii "Content-Length")) = [value]
        ∧ value ≠ [] ∧ value.all isDigit = true ∧ decimal value = payload.length :=
  ⟨fun _ => readFrames_written, fun _ _ _ => readFrame_sound⟩

/-- A payload that looks like a frame, between an empty one and one of line ends. -/
theorem frames_exact_nested : ∃ frames,
    [[], ascii "Content-Length: 0\r\n\r\n", crlf ++ crlf].mapM writeFrame = .ok frames
      ∧ readFrames 4 frames.flatten
        = .ok [some [], some (ascii "Content-Length: 0\r\n\r\n"), some (crlf ++ crlf), none]
      ∧ ∃ lines value, ascii "Content-Length: 0" ++ crlf ++ crlf = block lines ++ [] ++ []
        ∧ lines.filterMap (valueOf (ascii "Content-Length")) = [value] ∧ decimal value = 0 := by
  obtain ⟨frames, hframes, hread⟩ := frames_exact.1
    [[], ascii "Content-Length: 0\r\n\r\n", crlf ++ crlf] (by decide)
  obtain ⟨lines, value, hinput, -, -, hvalues, -, -, hvalue⟩ :=
    frames_exact.2 (ascii "Content-Length: 0" ++ crlf ++ crlf) [] []
      (@readFrame_written [] (Nat.zero_le _) [])
  exact ⟨frames, hframes, hread, lines, value, hinput, hvalues, hvalue⟩

end Zryna.LanguageServer.Framing
