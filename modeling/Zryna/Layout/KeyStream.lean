import Mathlib.Algebra.Order.BigOperators.Group.List
import Mathlib.Algebra.Order.Ring.Nat
import Zryna.Layout.Keys

/-!
# Streamed type keys

Keys are never written out. The verifier reads them with an iterator that stands in one key at a
position: it yields the first bytes of the key, then the length of the key of the child, and then
moves into the key of the child.

`Denoted` is what a node means, the finite tree of a type with its declarations as leaves, and
`Denoted.encode` writes it down with the length of every child before the child. In an admitted
graph that has keys every node denotes one type (`Keyed.denotes`), its key spells the encoding of
that type (`Denotes.keyBytes_eq`), the iterator yields exactly the key (`drain_eq_keyBytes`), and
the encoding tells types apart (`Denoted.encode_inj`).
-/

namespace Zryna.Layout.Aggregate

open Raw List

/-! ### The iterator -/

/-- The iterator over the bytes of a key: the key it stands in, and the position in that key. -/
structure KeyBytes where
  current : Option ℕ
  offset : ℕ
deriving DecidableEq

/-- One turn of the loop of `next`. -/
inductive KeyTurn where
  | done
  | item (byte : ℕ) (rest : KeyBytes)
  | enter (rest : KeyBytes)
deriving DecidableEq

namespace KeyBytes

variable (keys : List CanonicalKey)

/-- Keys refer to keys of the same list. -/
def turn (it : KeyBytes) : KeyTurn :=
  match it.current.bind fun index => keys[index]? with
  | none => .done
  | some key =>
    if it.offset < key.lead.length then
      .item (key.lead.getD it.offset 0) { it with offset := it.offset + 1 }
    else
      match key.child with
      | none => .done
      | some child =>
        if it.offset < key.lead.length + 4 then
          match keys[child]? with
          | none => .done
          | some childKey =>
            if childKey.encodedLen < 2 ^ 32 then
              .item ((leBytes 4 childKey.encodedLen).getD (it.offset - key.lead.length) 0)
                { it with offset := it.offset + 1 }
            else .done
        else .enter ⟨some child, 0⟩

/-- Turns until there is a byte or the end. -/
def nextLoop : ℕ → KeyBytes → Option (ℕ × KeyBytes)
  | 0, _ => none
  | turns + 1, it =>
    match it.turn keys with
    | .done => none
    | .item byte rest => some (byte, rest)
    | .enter rest => nextLoop turns rest

/-- The next byte. No key has an empty lead, so the loop turns at most twice. -/
def next (it : KeyBytes) : Option (ℕ × KeyBytes) := nextLoop keys (keys.length + 1) it

/-- The bytes of so many calls of `next`, up to the end. -/
def drain : ℕ → KeyBytes → List ℕ
  | 0, _ => []
  | rounds + 1, it =>
    match it.next keys with
    | none => []
    | some (byte, rest) => byte :: drain rounds rest

end KeyBytes

/-- The iterator at the front of a key. -/
def keyIter (index : ℕ) : KeyBytes := ⟨some index, 0⟩

/-- All bytes that the iterator yields for a key. -/
def keyStream (keys : List CanonicalKey) (index : ℕ) : List ℕ :=
  (keyIter index).drain keys (((keys[index]?).map CanonicalKey.encodedLen).getD 0 + 1)

/-! ### Denoted types -/

/-- What a type node means. A declaration stands for itself. -/
inductive Denoted where
  | bool
  | i32
  | string
  | struct (module declaration : ℕ)
  | enum (module declaration : ℕ)
  | fixedArray (element : Denoted) (length : ℕ)
  | vec (element : Denoted)
  | shared (payload : Denoted)
  | weak (payload : Denoted)
deriving DecidableEq

def framed (bytes : List ℕ) : List ℕ := leBytes 4 bytes.length ++ bytes

namespace Denoted

/-- The complete key of a type. -/
def encode : Denoted → List ℕ
  | .bool => [0x00]
  | .i32 => [0x01]
  | .string => [0x02]
  | .struct module declaration => 0x10 :: (leBytes 4 module ++ leBytes 4 declaration)
  | .enum module declaration => 0x11 :: (leBytes 4 module ++ leBytes 4 declaration)
  | .fixedArray element length => 0x20 :: leBytes 4 length ++ framed element.encode
  | .vec element => 0x21 :: framed element.encode
  | .shared payload => 0x22 :: framed payload.encode
  | .weak payload => 0x23 :: framed payload.encode

/-- Identities and lengths are 32 bits wide. -/
def Fits : Denoted → Prop
  | .bool | .i32 | .string => True
  | .struct module declaration | .enum module declaration =>
    module < 2 ^ 32 ∧ declaration < 2 ^ 32
  | .fixedArray element length => length < 2 ^ 32 ∧ element.Fits
  | .vec element => element.Fits
  | .shared payload | .weak payload => payload.Fits

end Denoted

def kindAt (graph : Graph) (index : ℕ) : Option TypeKind := (graph.types[index]?).map TypeNode.kind

/-- The type that a node denotes. -/
inductive Denotes (graph : Graph) : ℕ → Denoted → Prop
  | bool {i : ℕ} (h : kindAt graph i = some .bool) : Denotes graph i .bool
  | i32 {i : ℕ} (h : kindAt graph i = some .i32) : Denotes graph i .i32
  | string {i : ℕ} (h : kindAt graph i = some .string) : Denotes graph i .string
  | struct {i module declaration : ℕ} {fields : List Field}
      (h : kindAt graph i = some (.struct module declaration fields)) :
      Denotes graph i (.struct module declaration)
  | enum {i module declaration : ℕ} {variants : List Variant}
      (h : kindAt graph i = some (.enum module declaration variants)) :
      Denotes graph i (.enum module declaration)
  | fixedArray {i element length : ℕ} {τ : Denoted}
      (h : kindAt graph i = some (.fixedArray element length)) (helement : Denotes graph element τ) :
      Denotes graph i (.fixedArray τ length)
  | vec {i element : ℕ} {τ : Denoted} (h : kindAt graph i = some (.vec element))
      (helement : Denotes graph element τ) : Denotes graph i (.vec τ)
  | shared {i payload : ℕ} {τ : Denoted} (h : kindAt graph i = some (.shared payload))
      (hpayload : Denotes graph payload τ) : Denotes graph i (.shared τ)
  | weak {i payload : ℕ} {τ : Denoted} (h : kindAt graph i = some (.weak payload))
      (hpayload : Denotes graph payload τ) : Denotes graph i (.weak τ)

/-! ### The encoding -/

theorem framed_inj {a b : List ℕ} (h : framed a = framed b) : a = b :=
  (append_inj h (by rw [length_leBytes, length_leBytes])).2

namespace Denoted

theorem nominal_inj {m d m' d' : ℕ} (hm : m < 2 ^ 32) (hd : d < 2 ^ 32) (hm' : m' < 2 ^ 32)
    (hd' : d' < 2 ^ 32) (h : leBytes 4 m ++ leBytes 4 d = leBytes 4 m' ++ leBytes 4 d') :
    m = m' ∧ d = d' := by
  obtain ⟨hmodule, hdeclaration⟩ := append_inj h (by rw [length_leBytes, length_leBytes])
  exact ⟨leBytes_inj hm hm' hmodule, leBytes_inj hd hd' hdeclaration⟩

/-- The tag tells the form, and lengths of a fixed width tell the parts. -/
theorem encode_inj {τ υ : Denoted} (hτ : τ.Fits) (hυ : υ.Fits) (h : τ.encode = υ.encode) :
    τ = υ := by
  induction τ generalizing υ with
  | bool | i32 | string =>
    cases υ <;> first | rfl | simp [encode] at h
  | struct module declaration =>
    cases υ with
    | struct module' declaration' =>
      obtain ⟨rfl, rfl⟩ := nominal_inj hτ.1 hτ.2 hυ.1 hυ.2 ((cons_inj_right _).mp h)
      rfl
    | _ => simp [encode] at h
  | enum module declaration =>
    cases υ with
    | enum module' declaration' =>
      obtain ⟨rfl, rfl⟩ := nominal_inj hτ.1 hτ.2 hυ.1 hυ.2 ((cons_inj_right _).mp h)
      rfl
    | _ => simp [encode] at h
  | fixedArray element length ih =>
    cases υ with
    | fixedArray element' length' =>
      have hparts := append_inj ((cons_inj_right _).mp h)
        (by rw [length_leBytes, length_leBytes])
      obtain rfl := leBytes_inj hτ.1 hυ.1 hparts.1
      rw [ih hτ.2 hυ.2 (framed_inj hparts.2)]
    | _ => simp [encode] at h
  | vec element ih =>
    cases υ with
    | vec element' =>
      have hfits : element'.Fits := hυ
      rw [ih hτ hfits (framed_inj ((cons_inj_right _).mp h))]
    | _ => simp [encode] at h
  | shared payload ih =>
    cases υ with
    | shared payload' =>
      have hfits : payload'.Fits := hυ
      rw [ih hτ hfits (framed_inj ((cons_inj_right _).mp h))]
    | _ => simp [encode] at h
  | weak payload ih =>
    cases υ with
    | weak payload' =>
      have hfits : payload'.Fits := hυ
      rw [ih hτ hfits (framed_inj ((cons_inj_right _).mp h))]
    | _ => simp [encode] at h

end Denoted

/-! ### Lengths of keys -/

section Keyed

variable {graph : Graph} {keys : List CanonicalKey}

section

variable (h : Keyed graph keys)

include h

variable {i : ℕ}

theorem lead_bounds {key : CanonicalKey}
    (hkey : keys[i]? = some key) : 0 < key.lead.length ∧ key.lead.length ≤ 9 := by
  obtain ⟨node, -, herror, hlead, -⟩ := h.key_eq hkey
  obtain ⟨id, span, kind⟩ := node
  cases kind with
  | borrow referent => cases herror
  | _ => simp [hlead, keyLead]

/-- A key is no longer than its lead and the leads of shorter keys, with the lengths between. -/
theorem Keyed.encodedLen_le {key : CanonicalKey}
    (hkey : keys[i]? = some key) : key.encodedLen
      ≤ 13 * keys.countP fun other => other.encodedLen ≤ key.encodedLen := by
  induction hlen : key.encodedLen using Nat.strong_induction_on generalizing i key with
  | _ len ih =>
    subst hlen
    obtain ⟨-, hlead⟩ := lead_bounds h hkey
    obtain ⟨node, -, -, -, -, hencoded⟩ := h.key_eq hkey
    have hmem := mem_of_getElem? hkey
    have hself : 0 < keys.countP fun other => other.encodedLen ≤ key.encodedLen :=
      countP_pos_iff.mpr ⟨key, hmem, by simp⟩
    obtain ⟨-, hencoded⟩ | ⟨child, childKey, -, hchild, hencoded⟩ := hencoded
    · omega
    · have hshorter : childKey.encodedLen < key.encodedLen := by omega
      have hchildLen := ih childKey.encodedLen hshorter hchild rfl
      -- the key itself is not among the keys that are no longer than its child
      have hcount : (keys.countP fun other => other.encodedLen ≤ childKey.encodedLen)
          < keys.countP fun other => other.encodedLen ≤ key.encodedLen := by
        rw [countP_eq_length_filter, countP_eq_length_filter]
        have hsplit : keys.filter (fun other => other.encodedLen ≤ childKey.encodedLen)
            = (keys.filter fun other => other.encodedLen ≤ key.encodedLen).filter
              fun other => other.encodedLen ≤ childKey.encodedLen := by
          rw [filter_filter]
          refine filter_congr fun other _ => ?_
          rw [Bool.eq_iff_iff]
          simp only [Bool.and_eq_true, decide_eq_true_eq]
          omega
        rw [hsplit, length_filter_lt_length_iff_exists]
        refine ⟨key, mem_filter.mpr ⟨hmem, by simp⟩, by simpa using hshorter⟩
      omega

theorem Keyed.encodedLen_lt (htypes : graph.types.length ≤ maxTypeNodes)
    {key : CanonicalKey} (hkey : keys[i]? = some key) : key.encodedLen < 2 ^ 32 := by
  have hcount : (keys.countP fun other => other.encodedLen ≤ key.encodedLen) ≤ maxTypeNodes :=
    countP_le_length.trans (h.length_eq ▸ htypes)
  have hlen := h.encodedLen_le hkey
  unfold maxTypeNodes at hcount
  omega

/-! ### What keys spell -/

/-- Every node of an admitted graph that has keys denotes a type. -/
theorem Keyed.denotes (hi : i < graph.types.length) : ∃ τ, Denotes graph i τ := by
  obtain ⟨key, hkey⟩ : ∃ key, keys[i]? = some key :=
    ⟨_, getElem?_eq_getElem (h.length_eq ▸ hi)⟩
  induction hlen : key.encodedLen using Nat.strong_induction_on generalizing i key with
  | _ len ih =>
    subst hlen
    obtain ⟨node, hnode, herror, -, -, -⟩ := h.key_eq hkey
    have hkind : kindAt graph i = some node.kind := by rw [kindAt, hnode, Option.map_some]
    -- a child has a shorter key
    have hchild {child : ℕ} (hchild : keyChild node.kind = some child) :
        ∃ τ, Denotes graph child τ := by
      have hchildAt : keyChildAt graph i = some child := by
        rw [keyChildAt, hnode, Option.bind_some, hchild]
      obtain ⟨key', childKey, hkey', hchildKey, hshorter⟩ := h.child_shorter hchildAt
      rw [hkey, Option.some.injEq] at hkey'
      subst hkey'
      have hlt : child < graph.types.length :=
        h.length_eq ▸ (List.getElem?_eq_some_iff.mp hchildKey).1
      exact ih _ hshorter hlt childKey hchildKey rfl
    cases hform : node.kind with
    | bool => exact ⟨_, .bool (hform ▸ hkind)⟩
    | i32 => exact ⟨_, .i32 (hform ▸ hkind)⟩
    | string => exact ⟨_, .string (hform ▸ hkind)⟩
    | struct module declaration fields => exact ⟨_, .struct (hform ▸ hkind)⟩
    | enum module declaration variants => exact ⟨_, .enum (hform ▸ hkind)⟩
    | fixedArray element length =>
      obtain ⟨τ, hτ⟩ := hchild (by rw [hform]; rfl)
      exact ⟨_, .fixedArray (hform ▸ hkind) hτ⟩
    | vec element =>
      obtain ⟨τ, hτ⟩ := hchild (by rw [hform]; rfl)
      exact ⟨_, .vec (hform ▸ hkind) hτ⟩
    | shared payload =>
      obtain ⟨τ, hτ⟩ := hchild (by rw [hform]; rfl)
      exact ⟨_, .shared (hform ▸ hkind) hτ⟩
    | weak payload =>
      obtain ⟨τ, hτ⟩ := hchild (by rw [hform]; rfl)
      exact ⟨_, .weak (hform ▸ hkind) hτ⟩
    | borrow referent =>
      unfold keyError at herror
      rw [hform] at herror
      cases herror

/-- The key of a node is these bytes, with the right length. -/
def Spells (keys : List CanonicalKey) (index : ℕ) (bytes : List ℕ) : Prop :=
  ∀ key, keys[index]? = some key → key.encodedLen = bytes.length
    ∧ ∀ rounds, key.encodedLen < rounds → flattenKey keys rounds index = bytes

theorem Keyed.spells_leaf {kind : TypeKind}
    (hkind : kindAt graph i = some kind) (hchild : keyChild kind = none) :
    Spells keys i (keyLead kind) := by
  intro key hkey
  obtain ⟨node, hnode, -, hlead, hkeyChild, hencoded⟩ := h.key_eq hkey
  obtain rfl : node.kind = kind := by simpa [kindAt, hnode] using hkind
  rw [hchild] at hkeyChild
  obtain ⟨-, hencoded⟩ | ⟨child, childKey, hsome, -⟩ := hencoded
  · refine ⟨hlead ▸ hencoded, fun rounds hrounds => ?_⟩
    obtain ⟨rounds, rfl⟩ := Nat.exists_eq_succ_of_ne_zero (Nat.ne_zero_of_lt hrounds)
    rw [flattenKey, hkey]
    simp [hkeyChild, hlead]
  · rw [hkeyChild] at hsome
    cases hsome

end

variable {bytes : List ℕ} {child : ℕ} {τ : Denoted} {childKey : CanonicalKey}

theorem Keyed.spells_child (h : Keyed graph keys) (htypes : graph.types.length ≤ maxTypeNodes)
    {i : ℕ} {kind : TypeKind} (hkind : kindAt graph i = some kind)
    (hchild : keyChild kind = some child) (hbytes : Spells keys child bytes) :
    Spells keys i (keyLead kind ++ framed bytes) := by
  intro key hkey
  obtain ⟨node, hnode, -, hlead, hkeyChild, hencoded⟩ := h.key_eq hkey
  obtain rfl : node.kind = kind := by simpa [kindAt, hnode] using hkind
  rw [hchild] at hkeyChild
  obtain ⟨hnone, -⟩ | ⟨child', childKey, hsome, hchildKey, hencoded⟩ := hencoded
  · rw [hkeyChild] at hnone
    cases hnone
  rw [hkeyChild, Option.some.injEq] at hsome
  subst hsome
  obtain ⟨hlength, hflat⟩ := hbytes childKey hchildKey
  refine ⟨?_, fun rounds hrounds => ?_⟩
  · rw [length_append, framed, length_append, length_leBytes, ← hlead, ← hlength]
    exact hencoded
  · obtain ⟨rounds, rfl⟩ := Nat.exists_eq_succ_of_ne_zero (Nat.ne_zero_of_lt hrounds)
    rw [flattenKey, hkey]
    simp only [hkeyChild, hchildKey]
    rw [if_pos (h.encodedLen_lt htypes hchildKey), hflat rounds (by omega), hlead, hlength, framed]

theorem Denotes.spells {i : ℕ} (h : Keyed graph keys)
    (htypes : graph.types.length ≤ maxTypeNodes) (hτ : Denotes graph i τ) :
    Spells keys i τ.encode := by
  induction hτ with
  | bool hkind | i32 hkind | string hkind | struct hkind | enum hkind =>
    exact h.spells_leaf hkind rfl
  | fixedArray hkind _ ih | vec hkind _ ih | shared hkind _ ih | weak hkind _ ih =>
    exact h.spells_child htypes hkind rfl ih

theorem Denotes.keyBytes_eq {i : ℕ} (h : Keyed graph keys)
    (htypes : graph.types.length ≤ maxTypeNodes) (hi : i < graph.types.length)
    (hτ : Denotes graph i τ) : keyBytes keys i = τ.encode := by
  have hkey := getElem?_eq_getElem (h.length_eq ▸ hi : i < keys.length)
  obtain ⟨-, hflat⟩ := hτ.spells h htypes _ hkey
  rw [keyBytes, hkey]
  exact hflat _ (Nat.lt_succ_self _)

/-! ### What the iterator yields -/

theorem Keyed.keyBytes_leaf {i : ℕ} {key : CanonicalKey} (hkey : keys[i]? = some key)
    (hchild : key.child = none) : keyBytes keys i = key.lead := by
  rw [keyBytes, hkey, flattenKey, hkey]
  simp [hchild]

theorem Keyed.keyBytes_child (h : Keyed graph keys) (htypes : graph.types.length ≤ maxTypeNodes)
    {i : ℕ} {key : CanonicalKey} (hkey : keys[i]? = some key)
    (hchild : key.child = some child) (hchildKey : keys[child]? = some childKey) :
    keyBytes keys i = key.lead ++ (leBytes 4 childKey.encodedLen ++ keyBytes keys child) := by
  have hlt : child < graph.types.length :=
    h.length_eq ▸ (List.getElem?_eq_some_iff.mp hchildKey).1
  obtain ⟨τ, hτ⟩ := h.denotes hlt
  obtain ⟨-, hflat⟩ := hτ.spells h htypes childKey hchildKey
  obtain ⟨node, -, -, -, -, hencoded⟩ := h.key_eq hkey
  have hshorter : childKey.encodedLen < key.encodedLen := by
    obtain ⟨hnone, -⟩ | ⟨child', childKey', hsome, hchildKey', hencoded⟩ := hencoded
    · rw [hchild] at hnone
      cases hnone
    · rw [hchild, Option.some.injEq] at hsome
      subst hsome
      rw [hchildKey, Option.some.injEq] at hchildKey'
      subst hchildKey'
      omega
  rw [keyBytes, hkey, Option.map_some, Option.getD_some, flattenKey, hkey]
  simp only [hchild, hchildKey]
  rw [if_pos (h.encodedLen_lt htypes hchildKey), hflat _ hshorter, hτ.keyBytes_eq h htypes hlt]

/-- What the iterator has still to yield. It stands in the lead of a key, in the length after it,
or at the end of the length. -/
def Rests (keys : List CanonicalKey) (it : KeyBytes) (bytes : List ℕ) : Prop :=
  ∃ i key, it.current = some i ∧ keys[i]? = some key
    ∧ it.offset ≤ key.lead.length + (if key.child.isSome then 4 else 0)
    ∧ bytes = (keyBytes keys i).drop it.offset

/-- What is left begins with the byte at the position of the iterator. -/
theorem Rests.cons {it : KeyBytes} {i : ℕ} {key : CanonicalKey} {byte : ℕ}
    (hcurrent : it.current = some i) (hkey : keys[i]? = some key)
    (hoffset : it.offset < key.lead.length + (if key.child.isSome then 4 else 0))
    (hbyte : (keyBytes keys i)[it.offset]? = some byte) :
    ∃ rest, (keyBytes keys i).drop it.offset = byte :: rest
      ∧ Rests keys { it with offset := it.offset + 1 } rest := by
  obtain ⟨hlt, rfl⟩ := List.getElem?_eq_some_iff.mp hbyte
  exact ⟨_, drop_eq_getElem_cons hlt, i, key, hcurrent, hkey, hoffset, rfl⟩

theorem turn_lead (h : Keyed graph keys) (htypes : graph.types.length ≤ maxTypeNodes)
    {it : KeyBytes} {i : ℕ} {key : CanonicalKey} (hcurrent : it.current = some i)
    (hkey : keys[i]? = some key) (hoffset : it.offset < key.lead.length) :
    ∃ byte rest, it.turn keys = .item byte { it with offset := it.offset + 1 }
      ∧ (keyBytes keys i).drop it.offset = byte :: rest
      ∧ Rests keys { it with offset := it.offset + 1 } rest := by
  have hlead : ∃ tail, keyBytes keys i = key.lead ++ tail := by
    obtain ⟨-, -, -, -, -, ⟨hnone, -⟩ | ⟨child, childKey, hsome, hchildKey, -⟩⟩ := h.key_eq hkey
    · exact ⟨[], (Keyed.keyBytes_leaf hkey hnone).trans (append_nil _).symm⟩
    · exact ⟨_, h.keyBytes_child htypes hkey hsome hchildKey⟩
  obtain ⟨tail, htail⟩ := hlead
  have hbyte : (keyBytes keys i)[it.offset]? = some (key.lead.getD it.offset 0) := by
    rw [htail, getElem?_append_left hoffset, getD_eq_getElem?_getD,
      getElem?_eq_getElem hoffset, Option.getD_some]
  obtain ⟨rest, hdrop, hrests⟩ := Rests.cons hcurrent hkey (by omega) hbyte
  refine ⟨_, rest, ?_, hdrop, hrests⟩
  unfold KeyBytes.turn
  rw [hcurrent, Option.bind_some, hkey]
  exact if_pos hoffset

/-- In the length after the lead, a turn yields the next byte of the length. -/
theorem turn_length (h : Keyed graph keys) (htypes : graph.types.length ≤ maxTypeNodes)
    {it : KeyBytes} {i : ℕ} {key : CanonicalKey} (hcurrent : it.current = some i)
    (hkey : keys[i]? = some key) (hchild : key.child = some child)
    (hchildKey : keys[child]? = some childKey) (hlead : key.lead.length ≤ it.offset)
    (hoffset : it.offset < key.lead.length + 4) :
    ∃ byte rest, it.turn keys = .item byte { it with offset := it.offset + 1 }
      ∧ (keyBytes keys i).drop it.offset = byte :: rest
      ∧ Rests keys { it with offset := it.offset + 1 } rest := by
  have hlane : it.offset - key.lead.length < (leBytes 4 childKey.encodedLen).length := by
    rw [length_leBytes]
    omega
  have hbyte : (keyBytes keys i)[it.offset]?
      = some ((leBytes 4 childKey.encodedLen).getD (it.offset - key.lead.length) 0) := by
    rw [h.keyBytes_child htypes hkey hchild hchildKey, getElem?_append_right hlead,
      getElem?_append_left hlane, getD_eq_getElem?_getD,
      getElem?_eq_getElem hlane, Option.getD_some]
  obtain ⟨rest, hdrop, hrests⟩ := Rests.cons hcurrent hkey (by simpa [hchild] using hoffset) hbyte
  refine ⟨_, rest, ?_, hdrop, hrests⟩
  unfold KeyBytes.turn
  rw [hcurrent, Option.bind_some, hkey]
  simp only [hchild, hchildKey]
  rw [if_neg (Nat.not_lt.mpr hlead), if_pos hoffset, if_pos (h.encodedLen_lt htypes hchildKey)]

/-- One call of `next` takes the first byte of what is left. -/
theorem Rests.next (h : Keyed graph keys) (htypes : graph.types.length ≤ maxTypeNodes)
    {it : KeyBytes} (hrests : Rests keys it bytes) :
    (bytes = [] ∧ it.next keys = none) ∨ ∃ byte rest it', bytes = byte :: rest
      ∧ it.next keys = some (byte, it') ∧ Rests keys it' rest := by
  obtain ⟨i, key, hcurrent, hkey, hoffset, rfl⟩ := hrests
  obtain ⟨n, hn⟩ : ∃ n, keys.length = n + 1 :=
    Nat.exists_eq_succ_of_ne_zero fun h0 => by simp [eq_nil_of_length_eq_zero h0] at hkey
  -- a turn that yields a byte is the whole call
  have hitem {byte : ℕ} {it' : KeyBytes} (hturn : it.turn keys = .item byte it') :
      it.next keys = some (byte, it') := by
    rw [KeyBytes.next, KeyBytes.nextLoop, hturn]
  by_cases hlead : it.offset < key.lead.length
  · obtain ⟨byte, rest, hturn, hdrop, hrest⟩ := turn_lead h htypes hcurrent hkey hlead
    exact .inr ⟨byte, rest, _, hdrop, hitem hturn, hrest⟩
  have hlead := Nat.not_lt.mp hlead
  obtain ⟨-, -, -, -, -, ⟨hnone, -⟩ | ⟨child, childKey, hsome, hchildKey, -⟩⟩ := h.key_eq hkey
  · -- the end of a key without a child
    have hturn : it.turn keys = .done := by
      unfold KeyBytes.turn
      rw [hcurrent, Option.bind_some, hkey]
      simp only [hnone]
      exact if_neg (Nat.not_lt.mpr hlead)
    refine .inl ⟨?_, by rw [KeyBytes.next, KeyBytes.nextLoop, hturn]⟩
    rw [Keyed.keyBytes_leaf hkey hnone, drop_eq_nil_of_le hlead]
  simp only [hsome, Option.isSome_some, if_true] at hoffset
  by_cases hlength : it.offset < key.lead.length + 4
  · obtain ⟨byte, rest, hturn, hdrop, hrest⟩ :=
      turn_length h htypes hcurrent hkey hsome hchildKey hlead hlength
    exact .inr ⟨byte, rest, _, hdrop, hitem hturn, hrest⟩
  -- the iterator moves into the child and yields the tag of the child
  have hend : it.offset = key.lead.length + 4 := by omega
  have hturn : it.turn keys = .enter ⟨some child, 0⟩ := by
    unfold KeyBytes.turn
    rw [hcurrent, Option.bind_some, hkey]
    simp only [hsome]
    rw [if_neg (Nat.not_lt.mpr hlead), if_neg hlength]
  have hdrop : (keyBytes keys i).drop it.offset = keyBytes keys child := by
    rw [h.keyBytes_child htypes hkey hsome hchildKey, hend, ← append_assoc]
    exact drop_left' (by rw [length_append, length_leBytes])
  obtain ⟨byte, rest, hturn', hdrop', hrest⟩ := @turn_lead _ _ h htypes (keyIter child) _ _
    rfl hchildKey (lead_bounds h hchildKey).1
  refine .inr ⟨byte, rest, _, hdrop.trans hdrop', ?_, hrest⟩
  rw [KeyBytes.next, KeyBytes.nextLoop, hturn, hn]
  show KeyBytes.nextLoop keys (n + 1) (keyIter child) = _
  rw [KeyBytes.nextLoop, hturn']

/-- Draining the iterator yields the key, however many calls are made after its end. -/
theorem drain_eq_keyBytes (h : Keyed graph keys) (htypes : graph.types.length ≤ maxTypeNodes)
    {it : KeyBytes} (hrests : Rests keys it bytes) {rounds : ℕ}
    (hrounds : bytes.length ≤ rounds) : it.drain keys rounds = bytes := by
  induction rounds generalizing it bytes with
  | zero =>
    rw [eq_nil_of_length_eq_zero (Nat.le_zero.mp hrounds), KeyBytes.drain]
  | succ rounds ih =>
    obtain ⟨rfl, hnext⟩ | ⟨byte, rest, it', rfl, hnext, hrests'⟩ := hrests.next h htypes
    · rw [KeyBytes.drain, hnext]
    · rw [KeyBytes.drain, hnext]
      exact congrArg (byte :: ·) (ih hrests' (Nat.le_of_succ_le_succ hrounds))

theorem rests_keyIter {i : ℕ} {key : CanonicalKey} (hkey : keys[i]? = some key) :
    Rests keys (keyIter i) (keyBytes keys i) :=
  ⟨i, key, rfl, hkey, Nat.zero_le _, rfl⟩

end Keyed

/-! ### Admitted graphs -/

variable {graph : Graph} {sources : SourceMap}

/-- Declarations of admitted graphs are 32-bit identities. -/
theorem Admitted.nominal_lt (h : Admitted graph sources)
    {node : TypeNode} (hnode : node ∈ graph.types) {module declaration : ℕ}
    (hidentity : node.kind.nominalIdentity = some (module, declaration)) :
    module < 2 ^ 32 ∧ declaration < 2 ^ 32 := by
  have hshape := h.shape node hnode
  have href : (verifyNominalRef graph node.span module declaration).Clean := by
    obtain ⟨id, span, kind⟩ := node
    cases kind with
    | struct | enum =>
      cases hidentity
      exact ((Report.clean_bind _ _).mp hshape).1
    | _ => cases hidentity
  rw [verifyNominalRef, Report.clean_pushIf, not_not, Option.any_eq_true] at href
  obtain ⟨candidate, hcandidate, hlt⟩ := href
  rw [Bool.and_eq_true, decide_eq_true_eq, decide_eq_true_eq] at hlt
  refine ⟨(h.modules module candidate hcandidate).1, ?_⟩
  -- no module declares more types than the graph has nodes
  have hsum : candidate.dataDeclarations ≤ (graph.modules.map Module.dataDeclarations).sum :=
    single_le_sum (fun _ _ => Nat.zero_le _) _
      (mem_map_of_mem (mem_of_getElem? hcandidate))
  have hnominals : (graph.types.filterMap fun node => node.kind.nominalIdentity).length
      ≤ maxTypeNodes := (length_filterMap_le _ _).trans h.types_le
  rw [h.declarations] at hsum
  unfold maxTypeNodes at hnominals
  omega

theorem Denotes.fits (h : Admitted graph sources) {i : ℕ}
    {τ : Denoted} (hτ : Denotes graph i τ) : τ.Fits := by
  induction hτ with
  | bool | i32 | string => trivial
  | struct hkind | enum hkind =>
    obtain ⟨node, hnode, hkind⟩ := Option.map_eq_some_iff.mp hkind
    exact h.nominal_lt (mem_of_getElem? hnode) (by rw [hkind]; rfl)
  | fixedArray hkind _ ih =>
    obtain ⟨node, hnode, hkind⟩ := Option.map_eq_some_iff.mp hkind
    have hshape := h.shape node (mem_of_getElem? hnode)
    obtain ⟨id, span, kind⟩ := node
    obtain rfl : kind = _ := hkind
    have hlength := (not_or.mp ((Report.clean_pushIf _ _).mp hshape)).2
    unfold maxArrayLength at hlength
    exact ⟨by omega, ih⟩
  | vec _ _ ih | shared _ _ ih | weak _ _ ih => exact ih

end Zryna.Layout.Aggregate
