import Zryna.Foundation.Checked
import Zryna.Package.Model

/-!
# The depth of canonical bytes

`checkDepth` scans bytes for brackets outside of strings. On the bytes of a value the scan finds the
brackets of its arrays and objects and no others, so it passes when the value is not nested too
deeply (`checkDepth_encode`). The scan of a part of a value leaves the state as it found it, which
is what the induction over the value carries.
-/

namespace Zryna.Package

open Json List

open Json (Value)

/-! ### Scans -/

/-- A scan goes from one state to another. -/
def Scans (st : DepthState) (bytes : List UInt8) (st' : DepthState) : Prop :=
  bytes.foldlM depthStep st = .ok st'

theorem Scans.nil (st : DepthState) : Scans st [] st := rfl

variable {byte : UInt8} {bytes : List UInt8} {st st' st'' : DepthState} {c : Char}

theorem Scans.cons (h : depthStep st byte = .ok st') (h' : Scans st' bytes st'') :
    Scans st (byte :: bytes) st'' := by
  rw [Scans, foldlM_cons, h]
  exact h'

theorem Scans.append {bytes' : List UInt8}
    (h : Scans st bytes st') (h' : Scans st' bytes' st'') : Scans st (bytes ++ bytes') st'' := by
  rw [Scans, foldlM_append, show bytes.foldlM depthStep st = .ok st' from h]
  exact h'

/-- Bytes that keep the state where it is. -/
theorem Scans.of_forall (h : ∀ byte ∈ bytes, depthStep st byte = .ok st) : Scans st bytes st := by
  induction bytes with
  | nil => exact .nil st
  | cons byte bytes ih =>
    obtain ⟨hbyte, hbytes⟩ := forall_mem_cons.mp h
    exact .cons hbyte (ih hbytes)

/-- The bytes of a character of more than one byte are not ASCII. -/
theorem mem_utf8EncodeChar (h : byte ∈ String.utf8EncodeChar c) :
    byte.toNat = c.toNat ∨ 128 ≤ byte.toNat := by
  have hval : c.val.toNat = c.toNat := rfl
  unfold String.utf8EncodeChar at h
  dsimp only at h
  split at h
  · left
    rw [mem_singleton.mp h, UInt8.toNat_ofNat']
    omega
  · right
    split at h
    · simp only [mem_cons, not_mem_nil, or_false] at h
      rcases h with rfl | rfl <;> rw [UInt8.toNat_ofNat'] <;> omega
    split at h
    · simp only [mem_cons, not_mem_nil, or_false] at h
      rcases h with rfl | rfl | rfl <;> rw [UInt8.toNat_ofNat'] <;> omega
    · simp only [mem_cons, not_mem_nil, or_false] at h
      rcases h with rfl | rfl | rfl | rfl <;> rw [UInt8.toNat_ofNat'] <;> omega

theorem ne_of_mem_utf8EncodeChar (h : byte ∈ String.utf8EncodeChar c)
    {n : ℕ} (hn : n < 128) (hc : c.toNat ≠ n) : byte ≠ UInt8.ofNat n := by
  rintro rfl
  have := mem_utf8EncodeChar h
  rw [UInt8.toNat_ofNat'] at this
  omega

variable {d : ℕ}

/-- Inside a string, a character that needs no escape. -/
theorem scans_char (hquote : c ≠ '"') (hslash : c ≠ '\\') :
    Scans ⟨d, true, false⟩ (String.utf8EncodeChar c) ⟨d, true, false⟩ := by
  refine .of_forall fun byte hbyte => ?_
  have h34 : byte ≠ 34 := ne_of_mem_utf8EncodeChar (n := 34) hbyte (by decide) fun h =>
    hquote (Char.toNat_inj.mp h)
  have h92 : byte ≠ 92 := ne_of_mem_utf8EncodeChar (n := 92) hbyte (by decide) fun h =>
    hslash (Char.toNat_inj.mp h)
  unfold depthStep
  rw [if_pos rfl, if_neg (by simp), if_neg h92, if_neg h34]

theorem scans_single (hquote : c ≠ '"') (hslash : c ≠ '\\') :
    Scans ⟨d, true, false⟩ (utf8Bytes [c]) ⟨d, true, false⟩ := by
  rw [utf8Bytes_cons, utf8Bytes, flatMap_nil, append_nil]
  exact scans_char hquote hslash

theorem scans_quote : Scans ⟨d, false, false⟩ (String.utf8EncodeChar '"') ⟨d, true, false⟩ := rfl

theorem scans_comma : Scans ⟨d, false, false⟩ (String.utf8EncodeChar ',') ⟨d, false, false⟩ := rfl

theorem scans_colon : Scans ⟨d, false, false⟩ (String.utf8EncodeChar ':') ⟨d, false, false⟩ := rfl

theorem scans_escape (c : Char) :
    Scans ⟨d, true, false⟩ (utf8Bytes (escape c)) ⟨d, true, false⟩ := by
  unfold escape
  split
  · rfl
  split
  · rfl
  split
  · rfl
  split
  · rfl
  split
  · rfl
  split
  · rfl
  split
  · rfl
  split
  · next h =>
    have hdigit : ∀ n < 16, hexDigit n ≠ '"' ∧ hexDigit n ≠ '\\' := by decide
    obtain ⟨hquote, hslash⟩ := hdigit (c.toNat / 16) (by omega)
    obtain ⟨hquote', hslash'⟩ := hdigit (c.toNat % 16) (by omega)
    have hlead : Scans ⟨d, true, false⟩ (utf8Bytes ['\\', 'u', '0', '0']) ⟨d, true, false⟩ := rfl
    rw [show ['\\', 'u', '0', '0', hexDigit (c.toNat / 16), hexDigit (c.toNat % 16)]
      = ['\\', 'u', '0', '0'] ++ [hexDigit (c.toNat / 16)] ++ [hexDigit (c.toNat % 16)]
      from rfl, utf8Bytes_append, utf8Bytes_append]
    exact (hlead.append (scans_single hquote hslash)).append (scans_single hquote' hslash')
  · next hquote hslash _ _ _ _ _ _ => exact scans_single hquote hslash

theorem scans_writeString (text : String) :
    Scans ⟨d, false, false⟩ (utf8Bytes (writeString text)) ⟨d, false, false⟩ := by
  have hbody (cs : List Char) :
      Scans ⟨d, true, false⟩ (utf8Bytes (cs.flatMap escape)) ⟨d, true, false⟩ := by
    induction cs with
    | nil => exact .nil _
    | cons c cs ih =>
      rw [flatMap_cons, utf8Bytes_append]
      exact (scans_escape c).append ih
  rw [writeString, utf8Bytes_cons, utf8Bytes_append]
  exact scans_quote.append ((hbody _).append rfl)

/-- Outside strings, a character of a number. -/
theorem scans_number {text : List Char} (h : ∀ c ∈ text, numberChar c = true) :
    Scans ⟨d, false, false⟩ (utf8Bytes text) ⟨d, false, false⟩ := by
  refine .of_forall fun byte hbyte => ?_
  obtain ⟨c, hc, hbyte⟩ := mem_flatMap.mp hbyte
  have hall : ([34, 123, 91, 125, 93].all fun n => !numberChar (Char.ofNat n)) = true := by
    decide
  have hne (n : ℕ) (hn : n ∈ [34, 123, 91, 125, 93]) : byte ≠ UInt8.ofNat n := by
    refine ne_of_mem_utf8EncodeChar hbyte ?_ ?_
    · revert n
      decide
    · rintro rfl
      have hnumber := all_eq_true.mp hall c.toNat hn
      rw [Char.ofNat_toNat, h c hc] at hnumber
      cases hnumber
  have h34 : byte ≠ 34 := hne 34 (by simp)
  have hopen : ¬(byte = 123 ∨ byte = 91) := not_or.mpr ⟨hne 123 (by simp), hne 91 (by simp)⟩
  have hclose : ¬(byte = 125 ∨ byte = 93) := not_or.mpr ⟨hne 125 (by simp), hne 93 (by simp)⟩
  unfold depthStep
  rw [if_neg (by simp), if_neg h34, if_neg hopen, if_neg hclose]

/-- An opening bracket, where there is room for what it encloses. -/
theorem depthStep_open (hbyte : byte = 123 ∨ byte = 91) (hd : d + 1 ≤ 6) :
    depthStep ⟨d, false, false⟩ byte = .ok ⟨d + 1, false, false⟩ := by
  have hne : byte ≠ 34 := by rcases hbyte with rfl | rfl <;> decide
  unfold depthStep
  rw [if_neg (by simp), if_neg hne, if_pos hbyte, if_neg (by simpa using hd)]

theorem depthStep_close (hbyte : byte = 125 ∨ byte = 93) :
    depthStep ⟨d + 1, false, false⟩ byte = .ok ⟨d, false, false⟩ := by
  have hne : byte ≠ 34 ∧ ¬(byte = 123 ∨ byte = 91) := by rcases hbyte with rfl | rfl <;> decide
  unfold depthStep
  rw [if_neg (by simp), if_neg hne.1, if_neg hne.2, if_pos hbyte]
  rfl

mutual

/-- A scan passes over a value that is not nested too deeply. -/
theorem scans_write : ∀ (value : Value) (d : ℕ), value.WellFormed → d + value.nesting ≤ 6 →
    Scans ⟨d, false, false⟩ (utf8Bytes (write value)) ⟨d, false, false⟩
  | .null, d, _, _ => rfl
  | .bool true, d, _, _ => rfl
  | .bool false, d, _, _ => rfl
  | .number text, d, h, _ => by
    rw [write]
    exact scans_number h.2
  | .string text, d, _, _ => by
    rw [write]
    exact scans_writeString text
  | .array [], d, _, hd => by
    rw [Value.nesting] at hd
    exact .cons (depthStep_open (.inr rfl) (by omega)) (.cons (depthStep_close (.inr rfl)) (.nil _))
  | .array (item :: items), d, h, hd => by
    rw [Value.nesting, itemsNesting] at hd
    rw [write, utf8Bytes_cons, utf8Bytes_append]
    exact .cons (depthStep_open (.inr rfl) (by omega))
      ((scans_write item (d + 1) h.1 (by omega)).append (scans_writeItems items d h.2 (by omega)))
  | .object [], d, _, hd => by
    rw [Value.nesting] at hd
    exact .cons (depthStep_open (.inl rfl) (by omega)) (.cons (depthStep_close (.inl rfl)) (.nil _))
  | .object ((key, value) :: members), d, h, hd => by
    rw [Value.nesting, membersNesting] at hd
    rw [write, utf8Bytes_cons, utf8Bytes_append, utf8Bytes_cons,
      utf8Bytes_append]
    exact .cons (depthStep_open (.inl rfl) (by omega)) ((scans_writeString key).append
      (scans_colon.append ((scans_write value (d + 1) h.1 (by omega)).append
          (scans_writeMembers members d h.2 (by omega)))))

theorem scans_writeItems : ∀ (items : List Value) (d : ℕ), ItemsWellFormed items →
    d + 1 + itemsNesting items ≤ 6 →
    Scans ⟨d + 1, false, false⟩ (utf8Bytes (writeItems items)) ⟨d, false, false⟩
  | [], d, _, _ => .cons (depthStep_close (.inr rfl)) (.nil _)
  | item :: items, d, h, hd => by
    rw [itemsNesting] at hd
    rw [writeItems, utf8Bytes_cons, utf8Bytes_append]
    exact scans_comma.append
      ((scans_write item (d + 1) h.1 (by omega)).append (scans_writeItems items d h.2 (by omega)))

theorem scans_writeMembers : ∀ (members : List (String × Value)) (d : ℕ),
    MembersWellFormed members → d + 1 + membersNesting members ≤ 6 →
    Scans ⟨d + 1, false, false⟩ (utf8Bytes (writeMembers members)) ⟨d, false, false⟩
  | [], d, _, _ => .cons (depthStep_close (.inl rfl)) (.nil _)
  | (key, value) :: members, d, h, hd => by
    rw [membersNesting] at hd
    rw [writeMembers, utf8Bytes_cons, utf8Bytes_append, utf8Bytes_cons,
      utf8Bytes_append]
    have hcomma : Scans ⟨d + 1, false, false⟩ [44] ⟨d + 1, false, false⟩ := rfl
    exact hcomma.append ((scans_writeString key).append (scans_colon.append
      ((scans_write value (d + 1) h.1 (by omega)).append
        (scans_writeMembers members d h.2 (by omega)))))

end

theorem checkDepth_encode {value : Value} (h : value.WellFormed) (hnesting : value.nesting ≤ 6) :
    checkDepth (encode value) = .ok () := by
  have hscan : Scans ⟨0, false, false⟩ (encode value) ⟨0, false, false⟩ :=
    (scans_write value 0 h (by omega)).append rfl
  unfold checkDepth
  rw [show (encode value).foldlM depthStep {} = .ok ⟨0, false, false⟩ from hscan]
  rfl

end Zryna.Package
