import Mathlib.Data.List.TakeWhile
import Zryna.Foundation.Utf8

/-!
# Header text

Text of protocol headers, as the bytes it is made of: ASCII literals, comparison without case,
fields split at their first separator, values trimmed at both ends, and decimal numbers.

A header block is its lines, each behind a CRLF, and an empty line. `Reading` is every way to find
the lines that a lenient recipient may follow, where a line may also end at a single line feed. For
lines without line ends of their own there is one such way (`reading_block`).
-/

namespace Zryna.HeaderText

open List

abbrev cr : UInt8 := 0x0d
abbrev lf : UInt8 := 0x0a
abbrev space : UInt8 := 0x20
abbrev tab : UInt8 := 0x09
abbrev colon : UInt8 := 0x3a
abbrev crlf : List UInt8 := [cr, lf]

/-- The bytes of an ASCII literal. -/
def ascii (text : String) : List UInt8 := text.toList.map Char.toUInt8

/-! ### Comparison without case -/

def lower (byte : UInt8) : UInt8 := if 0x41 ≤ byte ∧ byte ≤ 0x5a then byte + 0x20 else byte

def eqIgnoreCase (left right : List UInt8) : Bool := left.map lower = right.map lower

variable {left right : List UInt8} {q : UInt8 → Bool}

theorem eqIgnoreCase_iff : eqIgnoreCase left right = true ↔ left.map lower = right.map lower :=
  decide_eq_true_iff

theorem eqIgnoreCase_refl (text : List UInt8) : eqIgnoreCase text text = true :=
  eqIgnoreCase_iff.mpr rfl

theorem eqIgnoreCase.trans {middle : List UInt8} (h : eqIgnoreCase left middle = true)
    (h' : eqIgnoreCase middle right = true) : eqIgnoreCase left right = true :=
  eqIgnoreCase_iff.mpr ((eqIgnoreCase_iff.mp h).trans (eqIgnoreCase_iff.mp h'))

theorem eqIgnoreCase.symm (h : eqIgnoreCase left right = true) : eqIgnoreCase right left = true :=
  eqIgnoreCase_iff.mpr (eqIgnoreCase_iff.mp h).symm

/-! ### Splitting and trimming -/

/-- The text before and after the first separator. -/
def splitOnce (separator : UInt8) (text : List UInt8) : Option (List UInt8 × List UInt8) :=
  match text.dropWhile (· ≠ separator) with
  | [] => none
  | _ :: rest => some (text.takeWhile (· ≠ separator), rest)

theorem splitOnce_eq_some {separator : UInt8} {text before behind : List UInt8} :
    splitOnce separator text = some (before, behind)
      ↔ text = before ++ separator :: behind ∧ separator ∉ before := by
  constructor
  · intro h
    rw [splitOnce] at h
    split at h
    · cases h
    · next first rest hdrop =>
      obtain ⟨rfl, rfl⟩ := Prod.mk.inj (Option.some.inj h)
      have hfirst : first = separator := by
        have := head?_dropWhile_not (· ≠ separator) text
        rw [hdrop] at this
        simpa using this
      refine ⟨?_, fun hmem => by simpa using mem_takeWhile_imp hmem⟩
      rw [← congrArg (· :: rest) hfirst, ← hdrop, takeWhile_append_dropWhile]
  · rintro ⟨rfl, h⟩
    have hall : ∀ byte ∈ before, decide (byte ≠ separator) = true := fun byte hmem =>
      decide_eq_true fun heq => h (heq ▸ hmem)
    have hstop : decide (separator ≠ separator) = false := by simp
    rw [splitOnce, dropWhile_append_of_pos hall, dropWhile_cons_of_neg (by simp),
      takeWhile_append_of_pos hall, takeWhile_cons_of_neg (by simp), append_nil]

/-- The text without what satisfies `p` at either end. -/
def trim (p : UInt8 → Bool) (text : List UInt8) : List UInt8 :=
  ((text.dropWhile p).reverse.dropWhile p).reverse

variable {p : UInt8 → Bool}

theorem dropWhile_eq_self {text : List UInt8} (h : ∀ byte ∈ text, p byte = false) :
    text.dropWhile p = text := by
  cases text with
  | nil => rfl
  | cons byte text => rw [dropWhile_cons_of_neg (by simp [h byte mem_cons_self])]

theorem trim_eq_self {text : List UInt8} (h : ∀ byte ∈ text, p byte = false) :
    trim p text = text := by
  rw [trim, dropWhile_eq_self h, dropWhile_eq_self fun byte hmem => h byte (mem_reverse.mp hmem),
    reverse_reverse]

theorem dropWhile_congr {text : List UInt8}
    (h : ∀ byte ∈ text, p byte = q byte) : text.dropWhile p = text.dropWhile q := by
  induction text with
  | nil => rfl
  | cons byte text ih =>
    obtain ⟨hbyte, htext⟩ := forall_mem_cons.mp h
    rw [dropWhile_cons, dropWhile_cons, hbyte, ih htext]

theorem trim_congr {text : List UInt8}
    (h : ∀ byte ∈ text, p byte = q byte) : trim p text = trim q text := by
  rw [trim, trim, dropWhile_congr h, dropWhile_congr fun byte hmem =>
    h byte ((dropWhile_suffix q).mem (mem_reverse.mp hmem))]

theorem trim_cons {byte : UInt8} (h : p byte = true) (text : List UInt8) :
    trim p (byte :: text) = trim p text := by
  rw [trim, dropWhile_cons_of_pos h, ← trim]

/-- The trimmed value of a field, if it has the name. -/
def valueOf (name line : List UInt8) : Option (List UInt8) :=
  (splitOnce colon line).bind fun field =>
    if eqIgnoreCase field.1 name then
      some (trim (fun byte => byte = space || byte = tab) field.2)
    else none

/-! ### Decimal numbers -/

def isDigit (byte : UInt8) : Bool := 0x30 ≤ byte && byte ≤ 0x39

def decimal (digits : List UInt8) : ℕ :=
  digits.foldl (fun value digit => 10 * value + (digit.toNat - 0x30)) 0

/-- A number in decimal digits. -/
def digits (n : ℕ) : List UInt8 := (Nat.toDigits 10 n).map Char.toUInt8

theorem digits_ne_nil (n : ℕ) : digits n ≠ [] := by
  rw [digits, ne_eq, map_eq_nil_iff]
  exact Nat.toDigits_ne_nil

theorem toNat_toUInt8 {c : Char} (h : c.isDigit = true) :
    c.toUInt8.toNat = c.toNat ∧ 0x30 ≤ c.toNat ∧ c.toNat ≤ 0x39 := by
  rw [Char.isDigit, Bool.and_eq_true, decide_eq_true_eq, decide_eq_true_eq] at h
  have hlow : 0x30 ≤ c.toNat := UInt32.le_iff_toNat_le.mp h.1
  have hhigh : c.toNat ≤ 0x39 := UInt32.le_iff_toNat_le.mp h.2
  exact ⟨Nat.mod_eq_of_lt (hhigh.trans_lt (by decide)), hlow, hhigh⟩

theorem isDigit_of_mem_digits {n : ℕ} {byte : UInt8} (h : byte ∈ digits n) :
    isDigit byte = true := by
  obtain ⟨c, hc, rfl⟩ := mem_map.mp h
  obtain ⟨hbyte, hlow, hhigh⟩ := toNat_toUInt8 (Nat.isDigit_of_mem_toDigits (by decide) le_rfl hc)
  rw [isDigit, Bool.and_eq_true, decide_eq_true_eq, decide_eq_true_eq, UInt8.le_iff_toNat_le,
    UInt8.le_iff_toNat_le, hbyte]
  exact ⟨hlow, hhigh⟩

theorem foldl_toUInt8 {text : List Char} (h : ∀ c ∈ text, c.isDigit = true) (value : ℕ) :
    (text.map Char.toUInt8).foldl (fun value digit => 10 * value + (digit.toNat - 0x30)) value
      = Nat.ofDigitChars 10 text value := by
  induction text generalizing value with
  | nil => rw [map_nil, foldl_nil, Nat.ofDigitChars_nil]
  | cons c text ih =>
    rw [map_cons, foldl_cons, Nat.ofDigitChars_cons,
      ih fun c hc => h c (mem_cons_of_mem _ hc), (toNat_toUInt8 (h c mem_cons_self)).1]
    rfl

theorem decimal_digits (n : ℕ) : decimal (digits n) = n := by
  rw [decimal, digits,
    foldl_toUInt8 fun c hc => Nat.isDigit_of_mem_toDigits (by decide) le_rfl hc,
    Nat.ofDigitChars_ten_toDigits]

/-! ### Header blocks -/

/-- The lines of a header block, each with its terminator, and the empty line. -/
def block (lines : List (List UInt8)) : List UInt8 := lines.flatMap (· ++ crlf) ++ crlf

theorem block_cons (line : List UInt8) (lines : List (List UInt8)) :
    block (line :: lines) = line ++ crlf ++ block lines := by
  rw [block, flatMap_cons, append_assoc]
  rfl

/-- The text between one CRLF and the next. -/
def splitCrlf : List UInt8 → List (List UInt8)
  | [] => [[]]
  | 0x0d :: 0x0a :: text => [] :: splitCrlf text
  | byte :: text => (splitCrlf text).modifyHead (byte :: ·)

theorem splitCrlf_spec (text : List UInt8) :
    splitCrlf text ≠ [] ∧ block (splitCrlf text) = text ++ crlf ++ crlf := by
  fun_induction splitCrlf text with
  | case1 => exact ⟨cons_ne_nil _ _, rfl⟩
  | case2 text ih =>
    rw [block_cons, ih.2]
    exact ⟨cons_ne_nil _ _, rfl⟩
  | case3 byte text _ ih =>
    cases hsplit : splitCrlf text with
    | nil => exact absurd hsplit ih.1
    | cons line lines =>
      rw [hsplit, block_cons] at ih
      rw [modifyHead_cons, block_cons, cons_append, cons_append, ih.2]
      exact ⟨cons_ne_nil _ _, rfl⟩

/-- The parts make up the text, and the block if an empty line follows. -/
theorem block_splitCrlf (text : List UInt8) : block (splitCrlf text) = text ++ crlf ++ crlf :=
  (splitCrlf_spec text).2

theorem splitCrlf_cons {byte : UInt8} (h : byte ≠ cr) (text : List UInt8) :
    splitCrlf (byte :: text) = (splitCrlf text).modifyHead (byte :: ·) := by
  rw [splitCrlf]
  rintro _ rfl
  exact absurd rfl h

theorem splitCrlf_line {line : List UInt8} (h : cr ∉ line) (text : List UInt8) :
    splitCrlf (line ++ crlf ++ text) = line :: splitCrlf text := by
  induction line with
  | nil => rfl
  | cons byte line ih =>
    rw [mem_cons, not_or] at h
    rw [cons_append, cons_append, splitCrlf_cons (Ne.symm h.1), ih h.2]
    rfl

theorem splitCrlf_last {line : List UInt8} (h : cr ∉ line) : splitCrlf line = [line] := by
  induction line with
  | nil => rfl
  | cons byte line ih =>
    rw [mem_cons, not_or] at h
    rw [splitCrlf_cons (Ne.symm h.1), ih h.2]
    rfl

/-- A line without line ends of its own. -/
structure Plain (line : List UInt8) : Prop where
  ne_nil : line ≠ []
  cr : cr ∉ line
  lf : lf ∉ line

theorem block_eq_intercalate {lines : List (List UInt8)} (hne : lines ≠ []) :
    block lines = crlf.intercalate lines ++ crlf ++ crlf := by
  induction lines with
  | nil => exact absurd rfl hne
  | cons line lines ih =>
    rw [block_cons]
    cases lines with
    | nil => rw [intercalate_singleton]; rfl
    | cons next lines =>
      rw [ih (cons_ne_nil _ _), intercalate_cons_cons]
      simp only [append_assoc]

theorem splitCrlf_intercalate {lines : List (List UInt8)} (h : ∀ line ∈ lines, Plain line)
    (hne : lines ≠ []) : splitCrlf (crlf.intercalate lines) = lines := by
  induction lines with
  | nil => exact absurd rfl hne
  | cons line lines ih =>
    obtain ⟨hline, hlines⟩ := forall_mem_cons.mp h
    cases lines with
    | nil =>
      rw [intercalate_singleton]
      exact splitCrlf_last hline.cr
    | cons next lines =>
      rw [intercalate_cons_cons, splitCrlf_line hline.cr, ih hlines (cons_ne_nil _ _)]

/-- Where a cut of a line with its terminator can be. -/
theorem line_cut {line before behind : List UInt8} (h : line ++ crlf = before ++ behind) :
    (∃ first rest, line = before ++ first :: rest ∧ behind = first :: rest ++ crlf)
      ∨ before = line ∧ behind = crlf ∨ before = line ++ [cr] ∧ behind = [lf]
      ∨ before = line ++ crlf ∧ behind = [] := by
  rcases append_eq_append_iff.mp h with ⟨tail, rfl, htail⟩ | ⟨tail, rfl, rfl⟩
  · obtain _ | ⟨first, _ | ⟨second, _ | ⟨third, tail⟩⟩⟩ := tail
    · exact Or.inr (Or.inl ⟨append_nil _, htail.symm⟩)
    · obtain ⟨rfl, hbehind⟩ := List.cons.inj htail
      exact Or.inr (Or.inr (Or.inl ⟨rfl, hbehind.symm⟩))
    · obtain ⟨hfirst, htail⟩ := List.cons.inj htail
      obtain ⟨hsecond, hbehind⟩ := List.cons.inj htail
      exact Or.inr (Or.inr (Or.inr ⟨by rw [← hfirst, ← hsecond], hbehind.symm⟩))
    · exact absurd (congrArg List.length htail) (by simp)
  · obtain _ | ⟨first, tail⟩ := tail
    · exact Or.inr (Or.inl ⟨(append_nil _).symm, rfl⟩)
    · exact Or.inl ⟨first, tail, rfl, rfl⟩

theorem getLast?_of_line {line before behind : List UInt8} (hline : lf ∉ line)
    (h : line ++ crlf = before ++ lf :: behind) : before.getLast? = some cr := by
  rcases line_cut h with ⟨first, rest, rfl, hrest⟩ | ⟨-, hrest⟩ | ⟨rfl, -⟩ | ⟨-, hrest⟩
  · rw [(List.cons.inj hrest).1] at hline
    exact absurd (mem_append_right _ mem_cons_self) hline
  · exact absurd (List.cons.inj hrest).1 (by decide)
  · exact getLast?_concat
  · exact absurd hrest (cons_ne_nil _ _)

/-- A line feed in a block stands behind a carriage return. -/
theorem getLast?_of_block {lines : List (List UInt8)} (h : ∀ line ∈ lines, Plain line)
    {before behind : List UInt8} (hblock : block lines = before ++ lf :: behind) :
    before.getLast? = some cr := by
  induction lines generalizing before with
  | nil => exact @getLast?_of_line [] _ _ not_mem_nil hblock
  | cons line lines ih =>
    obtain ⟨hline, hlines⟩ := forall_mem_cons.mp h
    rw [block_cons] at hblock
    rcases append_eq_append_iff.mp hblock with ⟨tail, rfl, htail⟩ | ⟨tail, htail, hrest⟩
    · rw [getLast?_append, ih hlines htail]
      rfl
    · obtain _ | ⟨first, tail⟩ := tail
      · exact absurd (@ih hlines [] hrest.symm) (by simp)
      · rw [← (List.cons.inj hrest).1] at htail
        exact getLast?_of_line hline.lf htail

theorem block_head {lines : List (List UInt8)} (h : ∀ line ∈ lines, Plain line)
    {behind : List UInt8} (hblock : block lines = crlf ++ behind) : lines = [] ∧ behind = [] := by
  cases lines with
  | nil => exact ⟨rfl, ((append_right_inj crlf).mp hblock).symm⟩
  | cons line lines =>
    obtain ⟨hline, -⟩ := forall_mem_cons.mp h
    obtain ⟨hne, hcr, -⟩ := hline
    obtain _ | ⟨first, line⟩ := line
    · exact absurd rfl hne
    · rw [block_cons] at hblock
      rw [(List.cons.inj hblock).1] at hcr
      exact absurd mem_cons_self hcr

/-- A block ends with its first empty line. -/
theorem block_end {lines : List (List UInt8)} (h : ∀ line ∈ lines, Plain line)
    {before behind : List UInt8} (hblock : block lines = before ++ (crlf ++ crlf ++ behind)) :
    behind = [] := by
  induction lines generalizing before with
  | nil => exact absurd (congrArg List.length hblock) (by simp [block]; omega)
  | cons line lines ih =>
    obtain ⟨hline, hlines⟩ := forall_mem_cons.mp h
    rw [block_cons] at hblock
    rcases append_eq_append_iff.mp hblock with ⟨tail, rfl, htail⟩ | ⟨tail, htail, hrest⟩
    · exact ih hlines htail
    rcases line_cut htail with ⟨first, rest, rfl, rfl⟩ | ⟨-, rfl⟩ | ⟨-, rfl⟩ | ⟨-, rfl⟩
    · rw [← (List.cons.inj hrest).1] at hline
      exact absurd (mem_append_right _ mem_cons_self) hline.cr
    · rw [append_assoc] at hrest
      exact (block_head hlines ((append_right_inj crlf).mp hrest).symm).2
    · exact absurd (List.cons.inj hrest).1 (by decide)
    · exact @ih hlines [] hrest.symm

/-- The lines of a header block that a recipient finds which ends its lines at a line feed, with or
without a carriage return before it, and the block at its first empty line, and what is left. -/
inductive Reading : List UInt8 → List (List UInt8) → List UInt8 → Prop
  | empty {ending : List UInt8} (hending : ending = crlf ∨ ending = [lf]) (rest : List UInt8) :
    Reading (ending ++ rest) [] rest
  | line {line ending stream rest : List UInt8} {lines : List (List UInt8)} (hne : line ≠ [])
    (hlf : lf ∉ line) (hcr : line.getLast? ≠ some cr) (hending : ending = crlf ∨ ending = [lf])
    (h : Reading stream lines rest) : Reading (line ++ ending ++ stream) (line :: lines) rest

theorem Plain.getLast? {line : List UInt8} (h : Plain line) : line.getLast? ≠ some HeaderText.cr :=
  fun hlast => h.cr (mem_of_getLast? hlast)

theorem reading_of_block {lines : List (List UInt8)} (h : ∀ line ∈ lines, Plain line)
    (rest : List UInt8) : Reading (block lines ++ rest) lines rest := by
  induction lines with
  | nil => exact .empty (.inl rfl) rest
  | cons line lines ih =>
    obtain ⟨hline, hlines⟩ := forall_mem_cons.mp h
    rw [block_cons, append_assoc]
    exact .line hline.ne_nil hline.lf hline.getLast? (.inl rfl) (ih hlines)

/-- The first line feeds of two texts. -/
theorem lf_cut {rest rest' : List UInt8} (hleft : lf ∉ left) (hright : lf ∉ right)
    (h : left ++ lf :: rest = right ++ lf :: rest') : left = right ∧ rest = rest' := by
  have heq := (splitOnce_eq_some.mpr ⟨rfl, hleft⟩).symm.trans (splitOnce_eq_some.mpr ⟨h, hright⟩)
  exact Prod.mk.inj (Option.some.inj heq)

/-- A first line is read as it was written. -/
theorem ending_cut {line line' ending rest rest' : List UInt8} (hlf : lf ∉ line)
    (hcr : line.getLast? ≠ some cr) (hending : ending = crlf ∨ ending = [lf]) (hlf' : lf ∉ line')
    (h : line ++ ending ++ rest = line' ++ crlf ++ rest') : line = line' ∧ rest = rest' := by
  have hright : lf ∉ line' ++ [cr] := by
    rw [mem_append, not_or]
    exact ⟨hlf', by decide⟩
  have hline' : line' ++ crlf ++ rest' = line' ++ [cr] ++ lf :: rest' := by simp
  rw [hline'] at h
  rcases hending with rfl | rfl
  · have hleft : lf ∉ line ++ [cr] := by
      rw [mem_append, not_or]
      exact ⟨hlf, by decide⟩
    obtain ⟨heq, hrest⟩ := lf_cut hleft hright (by simpa using h)
    exact ⟨append_cancel_right heq, hrest⟩
  · obtain ⟨rfl, -⟩ := lf_cut hlf hright (by simpa using h)
    exact absurd getLast?_concat hcr

theorem reading_block {lines lines' : List (List UInt8)} (h : ∀ line ∈ lines, Plain line)
    {rest rest' : List UInt8} (hreading : Reading (block lines ++ rest) lines' rest') :
    lines' = lines ∧ rest' = rest := by
  induction lines generalizing lines' with
  | nil =>
    generalize hstream : block [] ++ rest = stream at hreading
    have hnil : block [] ++ rest = [] ++ crlf ++ rest := rfl
    rw [hnil] at hstream
    cases hreading with
    | empty hending =>
      rename_i ending
      have := @ending_cut [] _ _ _ _ not_mem_nil (by simp) hending not_mem_nil hstream.symm
      exact ⟨rfl, this.2⟩
    | line hne hlf hcr hending =>
      exact absurd (ending_cut hlf hcr hending not_mem_nil hstream.symm).1 hne
  | cons line lines ih =>
    obtain ⟨hline, hlines⟩ := forall_mem_cons.mp h
    generalize hstream : block (line :: lines) ++ rest = stream at hreading
    rw [block_cons, append_assoc] at hstream
    cases hreading with
    | empty hending =>
      have := @ending_cut [] _ _ _ _ not_mem_nil (by simp) hending hline.lf hstream.symm
      exact absurd this.1.symm hline.ne_nil
    | line hne hlf hcr hending hrest =>
      obtain ⟨rfl, rfl⟩ := ending_cut hlf hcr hending hline.lf hstream.symm
      obtain ⟨rfl, rfl⟩ := ih hlines hrest
      exact ⟨rfl, rfl⟩

/-! ### Well-formed text -/

theorem validRounds_ascii {text : List ℕ} (h : ∀ byte ∈ text, byte ≤ 0x7f) {fuel : ℕ}
    (hfuel : text.length ≤ fuel) : Utf8.validRounds fuel text = true := by
  induction text generalizing fuel with
  | nil => cases fuel <;> rfl
  | cons byte text ih =>
    cases fuel with
    | zero => exact absurd hfuel (by simp)
    | succ fuel =>
      have hlength : Utf8.scalarLength (byte :: text) = some 1 := by
        rw [Utf8.scalarLength.eq_def]
        exact if_pos (h byte mem_cons_self)
      unfold Utf8.validRounds
      dsimp only
      rw [hlength]
      exact ih (fun byte hmem => h byte (mem_cons_of_mem _ hmem)) (Nat.le_of_succ_le_succ hfuel)

theorem valid_ascii {text : List UInt8} (h : ∀ byte ∈ text, byte ≤ 0x7f) :
    Utf8.valid (text.map UInt8.toNat) = true := by
  apply validRounds_ascii _ le_rfl
  intro byte hmem
  obtain ⟨byte, hbyte, rfl⟩ := mem_map.mp hmem
  exact UInt8.le_iff_toNat_le.mp (h byte hbyte)

end Zryna.HeaderText
