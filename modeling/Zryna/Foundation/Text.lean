import Mathlib.Data.List.Infix
import Mathlib.Data.List.TakeWhile
import Zryna.Foundation.Utf8

/-!
# Offsets and lines of a text

A text is a list of scalar values. Offsets into it are counted in units: a `width` gives each scalar
value a positive number of them, and `measure` adds them up. The offsets that a width allows are the
measures of prefixes, and the order of prefixes is the order of their measures under any width, so
every two ways to count agree (`prefix_iff_measure_le`).

`lines` splits a text at the terminators CRLF, CR and LF; the last line has none. `lines_induction`
takes a text apart line by line. A place in a text is a line with a prefix of its content: every
prefix of the text is one, but for those that end between a CR and its LF (`exists_place`), and
places stand in the order of their prefixes (`place_lt`). Code that looks for terminators in bytes
meets none in the encoding of a line's content (`not_break_of_mem_encode`).
-/

namespace Zryna.Text

open List

variable {width : Char → ℕ} {text pre pre' suf : List Char}

/-! ### Measures -/

/-- The units of a text. -/
def measure (width : Char → ℕ) (text : List Char) : ℕ := (text.map width).sum

@[simp] theorem measure_nil : measure width [] = 0 := rfl

@[simp] theorem measure_cons (c : Char) :
    measure width (c :: text) = width c + measure width text := rfl

@[simp] theorem measure_append : measure width (pre ++ suf) = measure width pre + measure width suf
    := by
  rw [measure, map_append, sum_append, measure, measure]

/-- Every scalar value has units. -/
def Positive (width : Char → ℕ) : Prop := ∀ c, 0 < width c

theorem positive_utf8Size : Positive Char.utf8Size := fun c => c.utf8Size_pos

variable {width' : Char → ℕ} {k' : ℕ}

theorem measure_le_measure (h : ∀ c, width c ≤ width' c) (text : List Char) :
    measure width text ≤ measure width' text := by
  induction text with
  | nil => exact le_rfl
  | cons c text ih =>
    rw [measure_cons, measure_cons]
    exact Nat.add_le_add (h c) ih

section

variable (hwidth : Positive width)

include hwidth

theorem length_le_measure (text : List Char) : text.length ≤ measure width text := by
  have hone : measure (fun _ => 1) text = text.length := by simp [measure]
  exact hone ▸ measure_le_measure hwidth text

theorem measure_eq_zero : measure width text = 0 ↔ text = [] := by
  cases text with
  | nil => exact iff_of_true rfl rfl
  | cons c text =>
    have := hwidth c
    rw [measure_cons]
    exact iff_of_false (by omega) (cons_ne_nil c text)

/-- The prefixes of a text stand in the order of their measures. -/
theorem prefix_iff_measure_le (hpre : pre <+: text)
    (hpre' : pre' <+: text) : pre <+: pre' ↔ measure width pre ≤ measure width pre' := by
  constructor
  · rintro ⟨suf, rfl⟩
    rw [measure_append]
    exact Nat.le_add_right _ _
  · intro hle
    obtain h | ⟨suf, rfl⟩ := prefix_or_prefix_of_prefix hpre hpre'
    · exact h
    · rw [measure_append] at hle
      rw [(measure_eq_zero hwidth).mp (show measure width suf = 0 by omega), append_nil]

theorem eq_of_measure_eq (hpre : pre <+: text) (hpre' : pre' <+: text)
    (h : measure width pre = measure width pre') : pre = pre' :=
  ((prefix_iff_measure_le hwidth hpre hpre').mpr h.le).eq_of_length_le
    ((prefix_iff_measure_le hwidth hpre' hpre).mpr h.ge).length_le

/-- Two ways to count the same prefixes. -/
theorem measure_lt_iff (hwidth' : Positive width') (hpre : pre <+: text) (hpre' : pre' <+: text) :
    measure width pre < measure width pre' ↔ measure width' pre < measure width' pre' := by
  rw [← Nat.not_le, ← Nat.not_le, ← prefix_iff_measure_le hwidth hpre' hpre,
    prefix_iff_measure_le hwidth' hpre' hpre]

end

/-! ### Splitting at a byte -/

/-- The parts in front of a byte offset and from it on, if it is a boundary of scalar values. -/
def split : List Char → ℕ → Option (List Char × List Char)
  | text, 0 => some ([], text)
  | [], _ + 1 => none
  | c :: text, n + 1 =>
    if c.utf8Size ≤ n + 1 then
      (split text (n + 1 - c.utf8Size)).map fun parts => (c :: parts.1, parts.2)
    else none

theorem split_eq_some {n : ℕ} :
    split text n = some (pre, suf) ↔ text = pre ++ suf ∧ measure Char.utf8Size pre = n := by
  have hzero {text pre : List Char} (h : split text 0 = some ([], text)) :
      split text 0 = some (pre, suf) ↔ text = pre ++ suf ∧ measure Char.utf8Size pre = 0 := by
    rw [h, measure_eq_zero positive_utf8Size]
    constructor
    · rintro ⟨⟩
      exact ⟨rfl, rfl⟩
    · rintro ⟨h, rfl⟩
      rw [h, nil_append]
  induction text generalizing n pre with
  | nil =>
    cases n with
    | zero => exact hzero rfl
    | succ n =>
      refine iff_of_false (by rintro ⟨⟩) ?_
      rintro ⟨h, hn⟩
      rw [(append_eq_nil_iff.mp h.symm).1] at hn
      cases hn
  | cons c text ih =>
    cases n with
    | zero => exact hzero rfl
    | succ n =>
      have hpos := c.utf8Size_pos
      rw [split]
      cases pre with
      | nil =>
        refine iff_of_false ?_ nofun
        split_ifs <;> simp
      | cons d pre =>
        simp only [Option.ite_none_right_eq_some, Option.map_eq_some_iff, Prod.mk.injEq,
          List.cons.injEq, Prod.exists, measure_cons, cons_append]
        constructor
        · rintro ⟨hle, pre, suf, hsplit, ⟨rfl, rfl⟩, rfl⟩
          obtain ⟨rfl, hn⟩ := ih.mp hsplit
          exact ⟨⟨rfl, rfl⟩, by omega⟩
        · rintro ⟨⟨rfl, rfl⟩, hn⟩
          exact ⟨by omega, pre, suf, ih.mpr ⟨rfl, by omega⟩, ⟨rfl, rfl⟩, rfl⟩

/-! ### Lines -/

/-- A line and its terminator. -/
structure Line where
  content : List Char
  terminator : List Char
deriving DecidableEq

namespace Line

/-- The text of a line. -/
def full (line : Line) : List Char := line.content ++ line.terminator

/-- The line with more in front of it. -/
def prepend (front : List Char) (line : Line) : Line := ⟨front ++ line.content, line.terminator⟩

end Line

/-- A scalar value that ends lines. -/
def IsBreak (c : Char) : Prop := c = '\r' ∨ c = '\n'

instance (c : Char) : Decidable (IsBreak c) := inferInstanceAs (Decidable (_ ∨ _))

def lines : List Char → List Line
  | [] => [⟨[], []⟩]
  | '\r' :: '\n' :: text => ⟨[], ['\r', '\n']⟩ :: lines text
  | c :: text =>
    if IsBreak c then ⟨[], [c]⟩ :: lines text
    else (lines text).modifyHead (Line.prepend [c])

example : lines ['a', '\r', '\r', '\n', '\n', 'b'] =
    [⟨['a'], ['\r']⟩, ⟨[], ['\r', '\n']⟩, ⟨[], ['\n']⟩, ⟨['b'], []⟩] := by decide

/-- No line ends in the text. -/
def Unbroken (text : List Char) : Prop := ∀ c ∈ text, ¬IsBreak c

/-- What ends a line that the rest follows. -/
inductive Terminates : List Char → List Char → Prop
  | crlf (rest : List Char) : Terminates ['\r', '\n'] rest
  | cr {rest : List Char} (h : rest.head? ≠ some '\n') : Terminates ['\r'] rest
  | lf (rest : List Char) : Terminates ['\n'] rest

variable {rest terminator front : List Char} {line : Line}

theorem Terminates.ne_nil (h : Terminates terminator rest) : terminator ≠ [] := by
  cases h <;> exact cons_ne_nil _ _

/-- The text behind a scalar value that starts no CRLF. -/
theorem lines_cons {c : Char} (h : c = '\r' → text.head? ≠ some '\n') :
    lines (c :: text) = if IsBreak c then ⟨[], [c]⟩ :: lines text
      else (lines text).modifyHead (Line.prepend [c]) := by
  rw [lines]
  rintro rest rfl rfl
  exact h rfl rfl

theorem lines_unbroken_append (hfront : Unbroken front) :
    lines (front ++ text) = (lines text).modifyHead (Line.prepend front) := by
  induction front with
  | nil =>
    have hid : Line.prepend [] = id := rfl
    rw [hid, modifyHead_id]
    rfl
  | cons c front ih =>
    obtain ⟨hc, hfront⟩ := forall_mem_cons.mp hfront
    rw [cons_append, lines_cons fun hcr => absurd (.inl hcr) hc, if_neg hc, ih hfront,
      modifyHead_modifyHead]
    rfl

theorem lines_unbroken (h : Unbroken text) : lines text = [⟨text, []⟩] := by
  have := @lines_unbroken_append [] _ h
  rwa [append_nil, show lines [] = [⟨[], []⟩] from rfl, modifyHead_cons, Line.prepend,
    append_nil] at this

theorem lines_terminated (hfront : Unbroken front) (hterminator : Terminates terminator rest) :
    lines (front ++ terminator ++ rest) = ⟨front, terminator⟩ :: lines rest := by
  have hrest : lines (terminator ++ rest) = ⟨[], terminator⟩ :: lines rest := by
    cases hterminator with
    | crlf => rfl
    | cr h => exact (lines_cons fun _ => h).trans (if_pos (.inl rfl))
    | lf => rfl
  rw [append_assoc, lines_unbroken_append hfront, hrest, modifyHead_cons, Line.prepend,
    append_nil]

/-- Taking a text apart line by line. -/
theorem lines_induction {motive : List Char → Prop} (last : ∀ front, Unbroken front → motive front)
    (line : ∀ front terminator rest, Unbroken front → Terminates terminator rest → motive rest →
      motive (front ++ terminator ++ rest)) (text : List Char) : motive text := by
  induction hlength : text.length using Nat.strong_induction_on generalizing text with
  | _ length ih =>
    subst hlength
    have hsplit : text.takeWhile (¬IsBreak ·) ++ text.dropWhile (¬IsBreak ·) = text :=
      takeWhile_append_dropWhile
    have hfront : Unbroken (text.takeWhile (¬IsBreak ·)) := fun c hc => by
      simpa using mem_takeWhile_imp hc
    cases hrest : text.dropWhile (¬IsBreak ·) with
    | nil =>
      rw [hrest, append_nil] at hsplit
      exact last text (hsplit ▸ hfront)
    | cons c rest =>
      have hc : IsBreak c := by
        have := head?_dropWhile_not (fun c => decide ¬IsBreak c) text
        rw [hrest] at this
        simpa using this
      have hlt (terminator rest' : List Char) (heq : c :: rest = terminator ++ rest')
          (hterminator : Terminates terminator rest') : motive text := by
        rw [hrest, heq, ← append_assoc] at hsplit
        rw [← hsplit]
        refine line _ terminator rest' hfront hterminator (ih _ ?_ rest' rfl)
        have hpos := length_pos_of_ne_nil hterminator.ne_nil
        rw [← hsplit]
        simp only [length_append]
        omega
      obtain rfl | rfl := hc
      · cases rest with
        | nil => exact hlt ['\r'] [] rfl (.cr nofun)
        | cons d rest =>
          by_cases hd : d = '\n'
          · subst hd
            exact hlt _ rest rfl (.crlf rest)
          · exact hlt ['\r'] (d :: rest) rfl (.cr (by simpa using hd))
      · exact hlt ['\n'] rest rfl (.lf rest)

/-! ### Places -/

/-- The text in front of a line. -/
def lineStart (text : List Char) (k : ℕ) : List Char := ((lines text).take k).flatMap Line.full

@[simp] theorem lineStart_zero : lineStart text 0 = [] := rfl

variable {k : ℕ}

theorem lineStart_succ (h : (lines text)[k]? = some line) :
    lineStart text (k + 1) = lineStart text k ++ line.full := by
  rw [lineStart, take_add_one, h, flatMap_append]
  simp [lineStart]

/-- A line of a text, and a prefix of what it contains. -/
structure Place (text : List Char) (k : ℕ) (column : List Char) (line : Line) : Prop where
  getElem? : (lines text)[k]? = some line
  isPrefix : column <+: line.content

theorem flatMap_lines (text : List Char) : (lines text).flatMap Line.full = text := by
  induction text using lines_induction with
  | last front hfront => simp [lines_unbroken hfront, Line.full]
  | line front terminator rest hfront hterminator ih =>
    rw [lines_terminated hfront hterminator, flatMap_cons, ih, Line.full]

theorem lines_ne_nil (text : List Char) : lines text ≠ [] := by
  induction text using lines_induction with
  | last front hfront => simp [lines_unbroken hfront]
  | line front terminator rest hfront hterminator =>
    rw [lines_terminated hfront hterminator]
    exact cons_ne_nil _ _

theorem length_lines_le (text : List Char) : (lines text).length ≤ text.length + 1 := by
  induction text using lines_induction with
  | last front hfront =>
    rw [lines_unbroken hfront]
    exact Nat.le_add_left _ _
  | line front terminator rest hfront hterminator ih =>
    have := length_pos_of_ne_nil hterminator.ne_nil
    rw [lines_terminated hfront hterminator]
    simp only [length_append, length_cons]
    omega

theorem lineStart_isPrefix (k : ℕ) : lineStart text k <+: text := by
  conv => rhs; rw [← flatMap_lines text, ← take_append_drop k (lines text),
    flatMap_append]
  exact prefix_append _ _

theorem lineStart_prefix_lineStart (h : k ≤ k') : lineStart text k <+: lineStart text k' :=
  (take_prefix_take_left h).flatMap _

variable {column : List Char}

theorem Place.prefix (h : Place text k column line) : lineStart text k ++ column <+: text := by
  have hfull : lineStart text k ++ line.full <+: text :=
    lineStart_succ h.getElem? ▸ lineStart_isPrefix (k + 1)
  have hcolumn : column <+: line.full := h.isPrefix.trans (prefix_append _ _)
  exact ((prefix_append_right_inj _).mpr hcolumn).trans hfull

/-- Between the CR and the LF of one terminator. -/
def InsideCrlf (pre suf : List Char) : Prop := pre.getLast? = some '\r' ∧ suf.head? = some '\n'

theorem terminator_ne_nil (h : (lines text)[k]? = some line)
    (hk : k + 1 < (lines text).length) : line.terminator ≠ [] := by
  induction text using lines_induction generalizing k with
  | last front hfront =>
    rw [lines_unbroken hfront, length_singleton] at hk
    exact absurd hk (by omega)
  | line front terminator rest hfront hterminator ih =>
    rw [lines_terminated hfront hterminator] at h hk
    cases k with
    | zero =>
      cases h
      exact hterminator.ne_nil
    | succ k => exact ih h (by simpa using hk)

/-- Every line in front of a line has taken some of the text. -/
theorem le_length_lineStart (hk : k < (lines text).length) : k ≤ (lineStart text k).length := by
  induction k with
  | zero => exact Nat.zero_le _
  | succ k ih =>
    have hline := getElem?_eq_getElem (show k < (lines text).length by omega)
    have := length_pos_of_ne_nil (terminator_ne_nil hline hk)
    rw [lineStart_succ hline, Line.full]
    simp only [length_append]
    exact (Nat.add_le_add (ih (by omega)) (Nat.one_le_iff_ne_zero.mpr (by omega)))

theorem lineStart_terminated (hfront : Unbroken front)
    (hterminator : Terminates terminator rest) (k : ℕ) :
    lineStart (front ++ terminator ++ rest) (k + 1) = front ++ terminator ++ lineStart rest k := by
  rw [lineStart, lines_terminated hfront hterminator, take_succ_cons, flatMap_cons]
  rfl

/-- Every prefix of a text is a place, but for those that end inside a CRLF. -/
theorem exists_place (hsplit : text = pre ++ suf) : (∃ k column line, Place text k column line
    ∧ lineStart text k ++ column = pre) ↔ ¬InsideCrlf pre suf := by
  induction text using lines_induction generalizing pre with
  | last front hfront =>
    have hlines := lines_unbroken hfront
    refine iff_of_true ⟨0, pre, ⟨front, []⟩, ⟨by rw [hlines]; rfl, ?_⟩, rfl⟩ ?_
    · exact ⟨suf, hsplit.symm⟩
    · rintro ⟨-, hhead⟩
      obtain ⟨suf, rfl⟩ := head?_eq_some_iff.mp hhead
      exact hfront '\n' (by simp [hsplit]) (.inr rfl)
  | line front terminator rest hfront hterminator ih =>
    have hlines := lines_terminated hfront hterminator
    -- the prefixes that places have: those of the first line, and those of the rest behind it
    have hplaces : (∃ k column line, Place (front ++ terminator ++ rest) k column line
        ∧ lineStart (front ++ terminator ++ rest) k ++ column = pre) ↔
      pre <+: front ∨ ∃ pre', pre = front ++ terminator ++ pre'
        ∧ ∃ k column line, Place rest k column line ∧ lineStart rest k ++ column = pre' := by
      constructor
      · rintro ⟨k, column, line, ⟨hline, hcolumn⟩, rfl⟩
        cases k with
        | zero =>
          rw [hlines] at hline
          cases hline
          exact .inl hcolumn
        | succ k =>
          rw [hlines] at hline
          rw [lineStart_terminated hfront hterminator, append_assoc]
          exact .inr ⟨_, rfl, k, column, line, ⟨hline, hcolumn⟩, rfl⟩
      · rintro (hpre | ⟨_, rfl, k, column, line, ⟨hline, hcolumn⟩, rfl⟩)
        · exact ⟨0, pre, _, ⟨by rw [hlines]; rfl, hpre⟩, rfl⟩
        · refine ⟨k + 1, column, line, ⟨by rw [hlines]; exact hline, hcolumn⟩, ?_⟩
          rw [lineStart_terminated hfront hterminator, append_assoc]
    rw [hplaces]
    have hpre : pre <+: front ++ terminator ++ rest := ⟨suf, hsplit.symm⟩
    have hbehind (pre' : List Char) (hpre' : pre = front ++ terminator ++ pre') :
        (pre <+: front ∨ ∃ pre', pre = front ++ terminator ++ pre'
          ∧ ∃ k column line, Place rest k column line ∧ lineStart rest k ++ column = pre')
        ↔ ¬InsideCrlf pre suf := by
      subst hpre'
      have hne : ¬front ++ terminator ++ pre' <+: front := fun h => by
        have := h.length_le
        have := length_pos_of_ne_nil hterminator.ne_nil
        simp only [length_append] at *
        omega
      have hrest : rest = pre' ++ suf := by
        rw [append_assoc (front ++ terminator)] at hsplit
        exact append_cancel_left hsplit
      have hinside : InsideCrlf (front ++ terminator ++ pre') suf ↔ InsideCrlf pre' suf := by
        cases pre' with
        | nil =>
          refine iff_of_false ?_ (by simp [InsideCrlf])
          rintro ⟨hlast, hhead⟩
          rw [hrest] at hterminator
          cases hterminator with
          | cr h => exact h hhead
          | crlf => simp at hlast
          | lf => simp at hlast
        | cons c pre' => simp [InsideCrlf]
      rw [hinside, ← ih hrest, or_iff_right hne]
      constructor
      · rintro ⟨pre'', heq, h⟩
        exact append_cancel_left heq ▸ h
      · exact fun h => ⟨pre', rfl, h⟩
    obtain hshort | ⟨pre', rfl⟩ := prefix_or_prefix_of_prefix hpre
      (prefix_append (front ++ terminator) rest)
    · by_cases hfrontPrefix : pre <+: front
      · refine iff_of_true (.inl hfrontPrefix) ?_
        rintro ⟨hlast, -⟩
        exact hfront '\r' (hfrontPrefix.subset (mem_of_getLast? hlast)) (.inl rfl)
      obtain h | ⟨pre', rfl⟩ := prefix_or_prefix_of_prefix hpre
        ((prefix_append front terminator).trans (prefix_append _ rest))
      · exact absurd h hfrontPrefix
      -- what is left ends in the terminator
      have hpre' : pre' <+: terminator := (prefix_append_right_inj _).mp hshort
      by_cases hall : pre' = terminator
      · exact hbehind [] (by rw [hall, append_nil])
      · obtain ⟨rfl, rfl⟩ : pre' = ['\r'] ∧ terminator = ['\r', '\n'] := by
          cases pre' with
          | nil => exact absurd (by simp) hfrontPrefix
          | cons c pre' =>
            cases hterminator with
            | crlf =>
              obtain ⟨rfl, htail⟩ := cons_prefix_cons.mp hpre'
              cases pre' with
              | nil => exact ⟨rfl, rfl⟩
              | cons d pre' =>
                obtain ⟨rfl, hnil⟩ := cons_prefix_cons.mp htail
                rw [prefix_nil.mp hnil] at hall
                exact absurd rfl hall
            | cr | lf =>
              obtain ⟨rfl, hnil⟩ := cons_prefix_cons.mp hpre'
              rw [prefix_nil.mp hnil] at hall
              exact absurd rfl hall
        refine iff_of_false ?_ (not_not.mpr ⟨by simp, ?_⟩)
        · rintro (h | ⟨pre'', heq, -⟩)
          · exact hfrontPrefix h
          · rw [append_assoc] at heq
            cases append_cancel_left heq
        · rw [append_assoc, append_assoc] at hsplit
          cases append_cancel_left hsplit
          rfl
    · exact hbehind pre' rfl

/-- Places stand in the order of the prefixes that they end. -/
theorem place_lt {column' : List Char} {line' : Line}
    (h : Place text k column line) (h' : Place text k' column' line') :
    (lineStart text k ++ column).length < (lineStart text k' ++ column').length
      ↔ k < k' ∨ k = k' ∧ column.length < column'.length := by
  have hlater {k k' : ℕ} {column column' : List Char} {line line' : Line}
      (h : Place text k column line) (h' : Place text k' column' line') (hlt : k < k') :
      (lineStart text k ++ column).length < (lineStart text k' ++ column').length := by
    obtain ⟨d, rfl⟩ := Nat.exists_eq_add_of_lt hlt
    have hlength := (List.getElem?_eq_some_iff.mp h'.getElem?).1
    have hterminator :=
      length_pos_of_ne_nil (terminator_ne_nil h.getElem? (by omega))
    have hstart : lineStart text (k + 1) <+: lineStart text (k + d + 1) :=
      lineStart_prefix_lineStart (by omega)
    have hcolumn := h.isPrefix.length_le
    have hle := hstart.length_le
    rw [lineStart_succ h.getElem?, Line.full] at hle
    simp only [length_append] at *
    omega
  obtain hlt | rfl | hlt := Nat.lt_trichotomy k k'
  · exact iff_of_true (hlater h h' hlt) (.inl hlt)
  · simp
  · exact iff_of_false (hlater h' h hlt).asymm (by omega)

/-! ### Bytes -/

def encode (text : List Char) : List UInt8 := text.flatMap String.utf8EncodeChar

theorem length_encode (text : List Char) : (encode text).length = measure Char.utf8Size text := by
  rw [encode, length_flatMap, measure]
  simp only [String.length_utf8EncodeChar]

theorem encode_append : encode (pre ++ suf) = encode pre ++ encode suf := flatMap_append

/-- A byte below `0x80` stands for itself. -/
theorem utf8EncodeChar_of_ascii {c : Char} {byte : UInt8} (h : byte ∈ String.utf8EncodeChar c)
    (hascii : byte.toNat < 0x80) : c.val.toNat = byte.toNat := by
  cases hc : String.utf8EncodeChar c with
  | nil => exact absurd hc String.utf8EncodeChar_ne_nil
  | cons first tail =>
    by_cases hfirst : first.toNat < 0x80
    · obtain rfl := (Utf8.scalar_ascii hfirst).mp ⟨c, hc⟩
      rw [hc, mem_singleton] at h
      subst h
      unfold String.utf8EncodeChar at hc
      dsimp only at hc
      split at hc
      · rw [← (List.cons.inj hc).1, Utf8.toNat_ofNat (by omega)]
      · split_ifs at hc <;> cases (List.cons.inj hc).2
    · -- every byte of a longer encoding has its high bit
      obtain ⟨payload, hform⟩ := Utf8.multibyte_of_encode (Nat.not_lt.mp hfirst) hc
      rw [hc] at h
      obtain rfl | h := mem_cons.mp h
      · exact absurd hascii hfirst
      · exact absurd hascii (Nat.not_lt.mpr (hform.continuation _ h).1)

/-- The content of a line has no byte of a terminator. -/
theorem not_break_of_mem_encode (hunbroken : Unbroken text) {byte : UInt8}
    (h : byte ∈ encode text) : byte ≠ 13 ∧ byte ≠ 10 := by
  obtain ⟨c, hc, hbyte⟩ := mem_flatMap.mp h
  have hne := hunbroken c hc
  constructor
  · rintro rfl
    exact hne (.inl (Char.ext (UInt32.toNat_inj.mp (utf8EncodeChar_of_ascii hbyte (by decide)))))
  · rintro rfl
    exact hne (.inr (Char.ext (UInt32.toNat_inj.mp (utf8EncodeChar_of_ascii hbyte (by decide)))))

/-- How many bytes the terminator in front has; zero where none stands. -/
def terminatorBytes : List UInt8 → ℕ
  | [] => 0
  | byte :: bytes =>
    if byte = 13 ∧ bytes.head? = some 10 then 2
    else if byte = 13 ∨ byte = 10 then 1
    else 0

theorem terminatorBytes_of_not_break {byte : UInt8} (h : byte ≠ 13 ∧ byte ≠ 10)
    (bytes : List UInt8) : terminatorBytes (byte :: bytes) = 0 := by
  rw [terminatorBytes, if_neg (fun hcrlf => h.1 hcrlf.1), if_neg (not_or.mpr h)]

theorem terminatorBytes_encode (h : Terminates terminator rest) :
    terminatorBytes (encode (terminator ++ rest)) = measure Char.utf8Size terminator := by
  cases h with
  | crlf => rfl
  | lf => rfl
  | cr h =>
    have hne : (encode rest).head? ≠ some 10 := by
      cases rest with
      | nil => exact nofun
      | cons c rest =>
        intro hhead
        obtain ⟨bytes, hc⟩ := exists_cons_of_ne_nil String.utf8EncodeChar_ne_nil
        obtain ⟨tail, hc⟩ := hc
        rw [encode, flatMap_cons, hc, cons_append, head?_cons,
          Option.some.injEq] at hhead
        subst hhead
        have hcode := utf8EncodeChar_of_ascii (hc ▸ mem_cons_self) (by decide)
        exact h (congrArg some (Char.ext (UInt32.toNat_inj.mp hcode)))
    rw [singleton_append]
    show terminatorBytes (13 :: encode rest) = 1
    rw [terminatorBytes, if_neg (by simp [hne]), if_pos (.inl rfl)]

end Zryna.Text
