import Mathlib.Algebra.Ring.Nat

/-!
# JSON text

JSON values and the compact text that a serializer writes for them: no white space, the members of
an object in the order in which they are held, and the shortest escape of every character that has
to be escaped.

`writeBytes_inj`: values with the same bytes are the same value. The numbers of a value are kept as
their text, of which nothing is assumed but its characters (`Value.WellFormed`).
-/

namespace Zryna.Json

open List

/-- A JSON value. -/
inductive Value where
  | null
  | bool (b : Bool)
  | number (text : List Char)
  | string (text : String)
  | array (items : List Value)
  | object (members : List (String × Value))

/-! ### Writing -/

/-- A lowercase hexadecimal digit. -/
def hexDigit (n : ℕ) : Char := Char.ofNat (if n < 10 then 48 + n else 87 + n)

/-- What stands for a character in a string. -/
def escape (c : Char) : List Char :=
  if c = '"' then ['\\', '"']
  else if c = '\\' then ['\\', '\\']
  else if c = '\x08' then ['\\', 'b']
  else if c = '\x09' then ['\\', 't']
  else if c = '\x0a' then ['\\', 'n']
  else if c = '\x0c' then ['\\', 'f']
  else if c = '\x0d' then ['\\', 'r']
  else if c.toNat < 0x20 then ['\\', 'u', '0', '0', hexDigit (c.toNat / 16), hexDigit (c.toNat % 16)]
  else [c]

def writeString (text : String) : List Char := '"' :: (text.toList.flatMap escape ++ ['"'])

mutual

def write : Value → List Char
  | .null => ['n', 'u', 'l', 'l']
  | .bool true => ['t', 'r', 'u', 'e']
  | .bool false => ['f', 'a', 'l', 's', 'e']
  | .number text => text
  | .string text => writeString text
  | .array [] => ['[', ']']
  | .array (item :: items) => '[' :: (write item ++ writeItems items)
  | .object [] => ['\x7b', '\x7d']
  | .object ((key, value) :: members) =>
    '\x7b' :: (writeString key ++ ':' :: (write value ++ writeMembers members))

/-- The items after the first one. -/
def writeItems : List Value → List Char
  | [] => [']']
  | item :: items => ',' :: (write item ++ writeItems items)

/-- The members after the first one. -/
def writeMembers : List (String × Value) → List Char
  | [] => ['\x7d']
  | (key, value) :: members =>
    ',' :: (writeString key ++ ':' :: (write value ++ writeMembers members))

end

def utf8Bytes (text : List Char) : List UInt8 := text.flatMap String.utf8EncodeChar

def writeBytes (value : Value) : List UInt8 := utf8Bytes (write value)

/-! ### Strings -/

def hexValue (c : Char) : ℕ := if c.toNat < 58 then c.toNat - 48 else c.toNat - 87

/-- Reads the character that an escape stands for. -/
def unescape : List Char → Option (Char × List Char)
  | [] => none
  | '"' :: _ => none
  | '\\' :: 'u' :: _ :: _ :: high :: low :: rest =>
    some (Char.ofNat (16 * hexValue high + hexValue low), rest)
  | '\\' :: 'b' :: rest => some ('\x08', rest)
  | '\\' :: 't' :: rest => some ('\x09', rest)
  | '\\' :: 'n' :: rest => some ('\x0a', rest)
  | '\\' :: 'f' :: rest => some ('\x0c', rest)
  | '\\' :: 'r' :: rest => some ('\x0d', rest)
  | '\\' :: c :: rest => some (c, rest)
  | c :: rest => some (c, rest)

theorem hexValue_hexDigit : ∀ n < 16, hexValue (hexDigit n) = n := by decide

theorem unescape_escape (c : Char) (rest : List Char) :
    unescape (escape c ++ rest) = some (c, rest) := by
  unfold escape
  split
  · next h => subst h; rfl
  split
  · next h => subst h; rfl
  split
  · next h => subst h; rfl
  split
  · next h => subst h; rfl
  split
  · next h => subst h; rfl
  split
  · next h => subst h; rfl
  split
  · next h => subst h; rfl
  split
  · next h =>
    -- the two digits are those of the code point
    have hhigh := hexValue_hexDigit (c.toNat / 16) (by omega)
    have hlow := hexValue_hexDigit (c.toNat % 16) (by omega)
    show some (Char.ofNat (16 * hexValue _ + hexValue _), rest) = _
    rw [hhigh, hlow, show 16 * (c.toNat / 16) + c.toNat % 16 = c.toNat by omega, Char.ofNat_toNat]
  · next hquote hslash _ _ _ _ _ _ =>
    rw [List.singleton_append, unescape]
    · exact fun h => hquote h
    all_goals intros; simp_all

/-- An escape tells its character. -/
theorem escape_append_inj {c d : Char} {r s : List Char} (h : escape c ++ r = escape d ++ s) :
    c = d ∧ r = s := by
  have hread := unescape_escape c r
  rw [h, unescape_escape] at hread
  simpa [eq_comm] using hread

theorem escape_append_ne_quote (c : Char) (r s : List Char) : escape c ++ r ≠ '"' :: s := by
  intro h
  have hread := unescape_escape c r
  rw [h] at hread
  cases hread

theorem writeString_append_inj {s t : String} {r u : List Char}
    (h : writeString s ++ r = writeString t ++ u) : s = t ∧ r = u := by
  have hbody (cs ds : List Char) (h : cs.flatMap escape ++ '"' :: r = ds.flatMap escape ++ '"' :: u) :
      cs = ds ∧ r = u := by
    induction cs generalizing ds with
    | nil =>
      cases ds with
      | nil => simpa using h
      | cons d ds =>
        rw [flatMap_cons, append_assoc] at h
        exact absurd h.symm (escape_append_ne_quote d _ _)
    | cons c cs ih =>
      rw [flatMap_cons, append_assoc] at h
      cases ds with
      | nil => exact absurd h (escape_append_ne_quote c _ _)
      | cons d ds =>
        rw [flatMap_cons, append_assoc] at h
        obtain ⟨rfl, hrest⟩ := escape_append_inj h
        obtain ⟨rfl, hr⟩ := ih ds hrest
        exact ⟨rfl, hr⟩
  simp only [writeString, cons_append, append_assoc, List.cons.injEq, true_and,
    nil_append] at h
  obtain ⟨hst, hr⟩ := hbody _ _ h
  exact ⟨String.toList_inj.mp hst, hr⟩

/-! ### Values -/

/-- The characters of a number. -/
def numberChar (c : Char) : Bool := c.isDigit || c ∈ ['-', '+', '.', 'e', 'E']

mutual

/-- The numbers of the value are written with the characters of numbers. -/
def Value.WellFormed : Value → Prop
  | .number text => text ≠ [] ∧ ∀ c ∈ text, numberChar c = true
  | .array items => ItemsWellFormed items
  | .object members => MembersWellFormed members
  | _ => True

def ItemsWellFormed : List Value → Prop
  | [] => True
  | item :: items => item.WellFormed ∧ ItemsWellFormed items

def MembersWellFormed : List (String × Value) → Prop
  | [] => True
  | (_, value) :: members => value.WellFormed ∧ MembersWellFormed members

end

/-- What follows a value: no more characters of a number. -/
def Ends (rest : List Char) : Prop := ∀ c ∈ rest.head?, numberChar c = false

theorem ends_nil : Ends [] := by simp [Ends]

theorem ends_items (items : List Value) (rest : List Char) : Ends (writeItems items ++ rest) := by
  cases items <;> simp [Ends, writeItems] <;> decide

theorem ends_members (members : List (String × Value)) (rest : List Char) :
    Ends (writeMembers members ++ rest) := by
  match members with
  | [] | _ :: _ => simp [Ends, writeMembers]; decide

/-- The text of a number ends where its characters end. -/
theorem number_append_inj {s t r u : List Char} (hs : ∀ c ∈ s, numberChar c = true)
    (ht : ∀ c ∈ t, numberChar c = true) (hr : Ends r) (hu : Ends u) (h : s ++ r = t ++ u) :
    s = t ∧ r = u := by
  have hspan {s r : List Char} (hs : ∀ c ∈ s, numberChar c = true) (hr : Ends r) :
      (s ++ r).takeWhile numberChar = s := by
    rw [takeWhile_append_of_pos hs]
    cases r with
    | nil => simp
    | cons c r => rw [takeWhile_cons_of_neg (by simp [hr c rfl]), append_nil]
  have hst : s = t := by rw [← hspan hs hr, h, hspan ht hu]
  subst hst
  exact ⟨rfl, append_cancel_left h⟩

def Value.form : Value → ℕ
  | .null => 0
  | .bool _ => 1
  | .number _ => 2
  | .string _ => 3
  | .array _ => 4
  | .object _ => 5

/-- The form of a value, from the first character of its text. -/
def formOf (c : Char) : ℕ :=
  if c = 'n' then 0
  else if c = 't' ∨ c = 'f' then 1
  else if c = '"' then 3
  else if c = '[' then 4
  else if c = '\x7b' then 5
  else 2

theorem formOf_numberChar {c : Char} (h : numberChar c = true) : formOf c = 2 := by
  have hall : (['n', 't', 'f', '"', '[', '\x7b'].all fun d => !numberChar d) = true := by decide
  have hnot (d : Char) (hd : d ∈ ['n', 't', 'f', '"', '[', '\x7b']) : c ≠ d := by
    rintro rfl
    have hne := List.all_eq_true.mp hall c hd
    rw [h] at hne
    cases hne
  unfold formOf
  rw [if_neg (hnot _ (by simp)), if_neg (not_or.mpr ⟨hnot _ (by simp), hnot _ (by simp)⟩),
    if_neg (hnot _ (by simp)), if_neg (hnot _ (by simp)), if_neg (hnot _ (by simp))]

theorem formOf_write {v : Value} (hv : v.WellFormed) :
    ∃ c text, write v = c :: text ∧ formOf c = v.form := by
  cases v with
  | null => exact ⟨_, _, rfl, by decide⟩
  | bool b => cases b <;> exact ⟨_, _, rfl, by decide⟩
  | number text =>
    obtain ⟨hne, hall⟩ := hv
    obtain ⟨c, text, rfl⟩ := List.exists_cons_of_ne_nil hne
    exact ⟨c, text, rfl, formOf_numberChar (hall c (by simp))⟩
  | string text => exact ⟨_, _, rfl, rfl⟩
  | array items => cases items <;> exact ⟨_, _, rfl, rfl⟩
  | object members =>
    match members with
    | [] | (_, _) :: _ => exact ⟨_, _, rfl, rfl⟩

theorem form_eq {v w : Value} {r u : List Char} (hv : v.WellFormed) (hw : w.WellFormed)
    (h : write v ++ r = write w ++ u) : v.form = w.form := by
  obtain ⟨c, text, hc, hform⟩ := formOf_write hv
  obtain ⟨d, text', hd, hform'⟩ := formOf_write hw
  rw [hc, hd, List.cons_append, List.cons_append, List.cons.injEq] at h
  rw [← hform, ← hform', h.1]

/-- No value starts as the end of an array does. -/
theorem write_append_ne_close {v : Value} {r s : List Char} (hv : v.WellFormed) :
    write v ++ r ≠ ']' :: s := by
  intro h
  obtain ⟨c, text, hc, hform⟩ := formOf_write hv
  rw [hc, List.cons_append, List.cons.injEq] at h
  obtain ⟨rfl, -⟩ := h
  cases v with
  | number digits =>
    have hdigit : numberChar ']' = true := hv.2 ']' (by rw [show digits = ']' :: text from hc]; simp)
    exact absurd hdigit (by decide)
  | _ => cases hform

mutual

theorem write_append_inj : ∀ {v w : Value} {r u : List Char}, v.WellFormed → w.WellFormed →
    Ends r → Ends u → write v ++ r = write w ++ u → v = w ∧ r = u
  | .null, w, r, u, hv, hw, _, _, h => by
    have hform := form_eq hv hw h
    cases w with
    | null => simpa [write] using h
    | _ => simp [Value.form] at hform
  | .bool b, w, r, u, hv, hw, _, _, h => by
    have hform := form_eq hv hw h
    cases w with
    | bool c => cases b <;> cases c <;> simp_all [write]
    | _ => simp [Value.form] at hform
  | .number text, w, r, u, hv, hw, hr, hu, h => by
    have hform := form_eq hv hw h
    cases w with
    | number text' =>
      obtain ⟨rfl, hrest⟩ := number_append_inj hv.2 hw.2 hr hu (by simpa only [write] using h)
      exact ⟨rfl, hrest⟩
    | _ => simp [Value.form] at hform
  | .string text, w, r, u, hv, hw, _, _, h => by
    have hform := form_eq hv hw h
    cases w with
    | string text' =>
      obtain ⟨rfl, hrest⟩ := writeString_append_inj (by simpa only [write] using h)
      exact ⟨rfl, hrest⟩
    | _ => simp [Value.form] at hform
  | .array [], w, r, u, hv, hw, _, _, h => by
    have hform := form_eq hv hw h
    cases w with
    | array items =>
      cases items with
      | nil => simpa [write] using h
      | cons item items =>
        simp only [write, List.cons_append, List.append_assoc, List.cons.injEq, true_and] at h
        exact absurd h.symm (write_append_ne_close hw.1)
    | _ => simp [Value.form] at hform
  | .array (v :: vs), w, r, u, hv, hw, _, _, h => by
    have hform := form_eq hv hw h
    cases w with
    | array items =>
      cases items with
      | nil =>
        simp only [write, List.cons_append, List.append_assoc, List.cons.injEq, true_and] at h
        exact absurd h (write_append_ne_close hv.1)
      | cons w ws =>
        simp only [write, List.cons_append, List.append_assoc, List.cons.injEq, true_and] at h
        obtain ⟨rfl, hvs⟩ := write_append_inj hv.1 hw.1 (ends_items vs r) (ends_items ws u) h
        obtain ⟨rfl, hrest⟩ := writeItems_append_inj hv.2 hw.2 hvs
        exact ⟨rfl, hrest⟩
    | _ => simp [Value.form] at hform
  | .object [], w, r, u, hv, hw, _, _, h => by
    have hform := form_eq hv hw h
    cases w with
    | object members =>
      match members with
      | [] => simpa [write] using h
      | (_, _) :: _ => simp [write, writeString] at h
    | _ => simp [Value.form] at hform
  | .object ((key, v) :: vs), w, r, u, hv, hw, _, _, h => by
    have hform := form_eq hv hw h
    cases w with
    | object members =>
      match members with
      | [] => simp [write, writeString] at h
      | (_, w) :: ws =>
        simp only [write, List.cons_append, List.append_assoc, List.cons.injEq, true_and] at h
        obtain ⟨rfl, hvalue⟩ := writeString_append_inj h
        rw [List.cons.injEq] at hvalue
        obtain ⟨rfl, hvs⟩ :=
          write_append_inj hv.1 hw.1 (ends_members vs r) (ends_members ws u) hvalue.2
        obtain ⟨rfl, hrest⟩ := writeMembers_append_inj hv.2 hw.2 hvs
        exact ⟨rfl, hrest⟩
    | _ => simp [Value.form] at hform

theorem writeItems_append_inj : ∀ {vs ws : List Value} {r u : List Char}, ItemsWellFormed vs →
    ItemsWellFormed ws → writeItems vs ++ r = writeItems ws ++ u → vs = ws ∧ r = u
  | [], [], r, u, _, _, h => by simpa [writeItems] using h
  | [], w :: ws, r, u, _, _, h => by simp [writeItems] at h
  | v :: vs, [], r, u, _, _, h => by simp [writeItems] at h
  | v :: vs, w :: ws, r, u, hv, hw, h => by
    simp only [writeItems, List.cons_append, List.append_assoc, List.cons.injEq, true_and] at h
    obtain ⟨rfl, hvs⟩ := write_append_inj hv.1 hw.1 (ends_items vs r) (ends_items ws u) h
    obtain ⟨rfl, hrest⟩ := writeItems_append_inj hv.2 hw.2 hvs
    exact ⟨rfl, hrest⟩

theorem writeMembers_append_inj : ∀ {vs ws : List (String × Value)} {r u : List Char},
    MembersWellFormed vs → MembersWellFormed ws →
    writeMembers vs ++ r = writeMembers ws ++ u → vs = ws ∧ r = u
  | [], [], r, u, _, _, h => by simpa [writeMembers] using h
  | [], (_, _) :: _, r, u, _, _, h => by simp [writeMembers] at h
  | (_, _) :: _, [], r, u, _, _, h => by simp [writeMembers] at h
  | (_, v) :: vs, (_, w) :: ws, r, u, hv, hw, h => by
    simp only [writeMembers, List.cons_append, List.append_assoc, List.cons.injEq, true_and] at h
    obtain ⟨rfl, hvalue⟩ := writeString_append_inj h
    rw [List.cons.injEq] at hvalue
    obtain ⟨rfl, hvs⟩ :=
      write_append_inj hv.1 hw.1 (ends_members vs r) (ends_members ws u) hvalue.2
    obtain ⟨rfl, hrest⟩ := writeMembers_append_inj hv.2 hw.2 hvs
    exact ⟨rfl, hrest⟩

end

/-! ### Bytes -/

theorem utf8Bytes_inj {s t : List Char} (h : utf8Bytes s = utf8Bytes t) : s = t := by
  have hbytes : s.utf8Encode = t.utf8Encode := by
    unfold List.utf8Encode
    exact congrArg List.toByteArray h
  have hread : some s.toArray = some t.toArray := by
    rw [← List.utf8Decode?_utf8Encode, ← List.utf8Decode?_utf8Encode, hbytes]
  simpa using hread

theorem writeBytes_inj {v w : Value} (hv : v.WellFormed) (hw : w.WellFormed)
    (h : writeBytes v = writeBytes w) : v = w := by
  have htext : write v ++ [] = write w ++ [] := by rw [utf8Bytes_inj h]
  exact (write_append_inj hv hw ends_nil ends_nil htext).1

/-! ### Nesting -/

mutual

/-- How deeply arrays and objects are nested. -/
def Value.nesting : Value → ℕ
  | .array items => itemsNesting items + 1
  | .object members => membersNesting members + 1
  | _ => 0

def itemsNesting : List Value → ℕ
  | [] => 0
  | item :: items => max item.nesting (itemsNesting items)

def membersNesting : List (String × Value) → ℕ
  | [] => 0
  | (_, value) :: members => max value.nesting (membersNesting members)

end

/-! ### Lengths -/

theorem utf8Bytes_append (s t : List Char) : utf8Bytes (s ++ t) = utf8Bytes s ++ utf8Bytes t :=
  List.flatMap_append

theorem utf8Bytes_cons (c : Char) (s : List Char) :
    utf8Bytes (c :: s) = String.utf8EncodeChar c ++ utf8Bytes s :=
  List.flatMap_cons

/-- A character that stands for itself, in one byte. -/
def plain (c : Char) : Bool := escape c = [c] && c.toNat < 128

theorem plain_of_printable {c : Char} (hlow : 32 ≤ c.toNat) (hhigh : c.toNat < 128)
    (hquote : c ≠ '"') (hslash : c ≠ '\\') : plain c = true := by
  have hne (d : Char) (hd : d.toNat < 32) : c ≠ d := by
    rintro rfl
    omega
  have hescape : escape c = [c] := by
    unfold escape
    rw [if_neg hquote, if_neg hslash, if_neg (hne _ (by decide)), if_neg (hne _ (by decide)),
      if_neg (hne _ (by decide)), if_neg (hne _ (by decide)), if_neg (hne _ (by decide)),
      if_neg (by omega)]
  simp [plain, hescape, hhigh]

theorem length_writeBytes_string {text : String} (h : ∀ c ∈ text.toList, plain c = true) :
    (writeBytes (.string text)).length = text.toList.length + 2 := by
  have hbody (cs : List Char) (h : ∀ c ∈ cs, plain c = true) :
      (utf8Bytes (cs.flatMap escape)).length = cs.length := by
    induction cs with
    | nil => rfl
    | cons c cs ih =>
      obtain ⟨hc, hcs⟩ := forall_mem_cons.mp h
      simp only [plain, Bool.and_eq_true, decide_eq_true_eq] at hc
      have hle : c.val.toNat ≤ 127 := Nat.le_of_lt_succ hc.2
      rw [flatMap_cons, utf8Bytes_append, length_append, ih hcs, hc.1, utf8Bytes_cons,
        String.utf8EncodeChar, if_pos hle]
      simp [utf8Bytes, Nat.add_comm]
  show (utf8Bytes ('"' :: (text.toList.flatMap escape ++ ['"']))).length = _
  rw [utf8Bytes_cons, utf8Bytes_append, length_append, length_append, hbody _ h,
    show (String.utf8EncodeChar '"').length = 1 from rfl, show (utf8Bytes ['"']).length = 1 from rfl]
  omega

theorem length_utf8Bytes_writeItems (items : List Value) :
    (utf8Bytes (writeItems items)).length
      = (items.map fun item => (writeBytes item).length + 1).sum + 1 := by
  induction items with
  | nil => rfl
  | cons item items ih =>
    rw [writeItems, utf8Bytes_cons, utf8Bytes_append, length_append, length_append, ih,
      map_cons, sum_cons, show (String.utf8EncodeChar ',').length = 1 from rfl, writeBytes]
    omega

theorem length_utf8Bytes_writeMembers (members : List (String × Value)) :
    (utf8Bytes (writeMembers members)).length
      = (members.map fun member => (writeBytes (.string member.1)).length
        + (writeBytes member.2).length + 2).sum + 1 := by
  induction members with
  | nil => rfl
  | cons member members ih =>
    obtain ⟨key, value⟩ := member
    rw [writeMembers, utf8Bytes_cons, utf8Bytes_append, utf8Bytes_cons, utf8Bytes_append]
    simp only [length_append]
    rw [ih, map_cons, sum_cons, show (String.utf8EncodeChar ',').length = 1 from rfl,
      show (String.utf8EncodeChar ':').length = 1 from rfl, writeBytes, writeBytes, write]
    dsimp only
    omega

theorem length_writeBytes_array (items : List Value) : (writeBytes (.array items)).length
    ≤ (items.map fun item => (writeBytes item).length + 1).sum + 2 := by
  cases items with
  | nil => exact Nat.le_refl 2
  | cons item items =>
    rw [writeBytes, write, utf8Bytes_cons, utf8Bytes_append, length_append, length_append,
      length_utf8Bytes_writeItems, map_cons, sum_cons,
      show (String.utf8EncodeChar '[').length = 1 from rfl, writeBytes]
    omega

theorem length_writeBytes_object (members : List (String × Value)) :
    (writeBytes (.object members)).length
      ≤ (members.map fun member => (writeBytes (.string member.1)).length
        + (writeBytes member.2).length + 2).sum + 2 := by
  match members with
  | [] => exact Nat.le_refl 2
  | (key, value) :: members =>
    rw [writeBytes, write, utf8Bytes_cons, utf8Bytes_append, utf8Bytes_cons, utf8Bytes_append]
    simp only [length_append]
    rw [length_utf8Bytes_writeMembers, map_cons, sum_cons,
      show (String.utf8EncodeChar '\x7b').length = 1 from rfl,
      show (String.utf8EncodeChar ':').length = 1 from rfl, writeBytes, writeBytes, write]
    dsimp only
    omega

end Zryna.Json
