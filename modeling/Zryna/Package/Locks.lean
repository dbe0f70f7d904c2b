import Zryna.Package.Resolution

/-!
# What a lock spells

A reader of records accepts an object with the members of a record, and it also accepts an array of
the record's fields in the order of their declaration. `Lock.Spelled` says which values are read as
a lock; with `positional` false it is the one value that a writer writes.

A value that spells a lock of bounded size is canonical, small and flat enough for `parse`
(`parse_of_spelled`).
-/

namespace Zryna.Package

open Checked Validation Json List

open Json (Value)

/-! ### Spelling -/

section Spelled

variable (positional : Prop)

/-- What is read as a compatibility claim. -/
inductive Compatibility.Spelled : Value → Compatibility → Prop
  | object (value : Compatibility) : Spelled value.toValue value
  | array (h : positional) (value : Compatibility) :
    Spelled (.array [.string value.compiler, .string value.profile,
      .array (value.targets.map .string)]) value

/-- What is read as an edge. -/
inductive LockEdge.Spelled : Value → LockEdge → Prop
  | object (edge : LockEdge) : Spelled edge.toValue edge
  | array (h : positional) (edge : LockEdge) :
    Spelled (.array [.string edge.aliasName, .string edge.package]) edge

/-- What is read as a package of a lock. -/
inductive LockPackage.Spelled : Value → LockPackage → Prop
  | object {id sourceSha256 : String} {edges : List Value} {dependencies : List LockEdge}
    (hedges : List.Forall₂ (LockEdge.Spelled positional) edges dependencies) :
    Spelled (.object [("dependencies", .array edges), ("id", .string id),
      ("sourceSha256", .string sourceSha256)]) ⟨id, sourceSha256, dependencies⟩
  | array (h : positional) {id sourceSha256 : String} {edges : List Value}
    {dependencies : List LockEdge}
    (hedges : List.Forall₂ (LockEdge.Spelled positional) edges dependencies) :
    Spelled (.array [.string id, .string sourceSha256, .array edges])
      ⟨id, sourceSha256, dependencies⟩

/-- What is read as a lock. -/
inductive Lock.Spelled : Value → Lock → Prop
  | object {format root : String} {claim : Value} {compatibility : Compatibility}
    {items : List Value} {packages : List LockPackage}
    (hclaim : Compatibility.Spelled positional claim compatibility)
    (hitems : List.Forall₂ (LockPackage.Spelled positional) items packages) :
    Spelled (.object [("compatibility", claim), ("format", .string format),
      ("packages", .array items), ("root", .string root)]) ⟨format, root, compatibility, packages⟩
  | array (h : positional) {format root : String} {claim : Value} {compatibility : Compatibility}
    {items : List Value} {packages : List LockPackage}
    (hclaim : Compatibility.Spelled positional claim compatibility)
    (hitems : List.Forall₂ (LockPackage.Spelled positional) items packages) :
    Spelled (.array [.string format, .string root, claim, .array items])
      ⟨format, root, compatibility, packages⟩

end Spelled

/-! ### Named spellings -/

theorem forall₂_map_left {α β : Type} {R : β → α → Prop} {f : α → β} (h : ∀ x, R (f x) x)
    (xs : List α) : List.Forall₂ R (xs.map f) xs := by
  induction xs with
  | nil => exact .nil
  | cons x xs ih => exact .cons (h x) ih

theorem eq_map_of_forall₂ {α β : Type} {R : β → α → Prop} {f : α → β} {xs : List α} {ys : List β}
    (h : ∀ y x, R y x → y = f x) (hR : List.Forall₂ R ys xs) : ys = xs.map f := by
  induction hR with
  | nil => rfl
  | cons hyx _ ih => rw [map_cons, ← h _ _ hyx, ih]

variable {positional : Prop}

theorem LockPackage.spelled_toValue (package : LockPackage) :
    LockPackage.Spelled positional package.toValue package :=
  .object (forall₂_map_left LockEdge.Spelled.object package.dependencies)

theorem Lock.spelled_toValue (lock : Lock) : Lock.Spelled positional lock.toValue lock :=
  .object (.object lock.compatibility) (forall₂_map_left LockPackage.spelled_toValue lock.packages)

/-- Without arrays for records, a lock is spelled as it is written. -/
theorem Lock.eq_toValue_of_spelled {value : Value} {lock : Lock}
    (h : Lock.Spelled False value lock) : value = lock.toValue := by
  have hclaim (value : Value) (claim : Compatibility)
      (h : Compatibility.Spelled False value claim) : value = claim.toValue := by
    cases h with
    | object => rfl
    | array h => exact h.elim
  have hedge (value : Value) (edge : LockEdge) (h : LockEdge.Spelled False value edge) :
      value = edge.toValue := by
    cases h with
    | object => rfl
    | array h => exact h.elim
  have hpackage (value : Value) (package : LockPackage)
      (h : LockPackage.Spelled False value package) : value = package.toValue := by
    cases h with
    | object hedges => rw [eq_map_of_forall₂ hedge hedges, LockPackage.toValue]
    | array h => exact h.elim
  cases h with
  | object hspelled hitems =>
    rw [hclaim _ _ hspelled, eq_map_of_forall₂ hpackage hitems, Lock.toValue]
  | array h => exact h.elim

/-! ### What a value spells -/

variable {claim : Compatibility} {edge : LockEdge} {values : List Value} {package : LockPackage}
  {n d m k : ℕ}

theorem Compatibility.Spelled.wellFormed {value : Value}
    (h : Compatibility.Spelled positional value claim) : value.WellFormed := by
  cases h with
  | object => exact claim.wellFormed
  | array => exact ⟨trivial, trivial, itemsWellFormed_map fun _ _ => trivial, trivial⟩

theorem LockEdge.Spelled.wellFormed {value : Value}
    (h : LockEdge.Spelled positional value edge) : value.WellFormed := by
  cases h <;> exact ⟨trivial, trivial, trivial⟩

theorem wellFormed_of_forall₂ {α : Type} {R : Value → α → Prop} {xs : List α}
    (hR : List.Forall₂ R values xs) (h : ∀ value x, R value x → value.WellFormed) :
    ItemsWellFormed values := by
  induction hR with
  | nil => trivial
  | cons hx _ ih => exact ⟨h _ _ hx, ih⟩

theorem LockPackage.Spelled.wellFormed {value : Value}
    (h : LockPackage.Spelled positional value package) : value.WellFormed := by
  cases h with
  | object hedges =>
    exact ⟨wellFormed_of_forall₂ hedges fun _ _ => LockEdge.Spelled.wellFormed, trivial, trivial,
      trivial⟩
  | array _ hedges =>
    exact ⟨trivial, trivial, wellFormed_of_forall₂ hedges fun _ _ => LockEdge.Spelled.wellFormed,
      trivial⟩

theorem Lock.Spelled.wellFormed {value : Value} {lock : Lock}
    (h : Lock.Spelled positional value lock) : value.WellFormed := by
  cases h with
  | object hclaim hitems =>
    exact ⟨hclaim.wellFormed, trivial,
      wellFormed_of_forall₂ hitems fun _ _ => LockPackage.Spelled.wellFormed, trivial, trivial⟩
  | array _ hclaim hitems =>
    exact ⟨trivial, trivial, hclaim.wellFormed,
      wellFormed_of_forall₂ hitems fun _ _ => LockPackage.Spelled.wellFormed, trivial⟩

theorem eq_of_forall₂ {α : Type} {R : Value → α → Prop} {xs ys : List α}
    (h : ∀ value x y, R value x → R value y → x = y) (hx : List.Forall₂ R values xs)
    (hy : List.Forall₂ R values ys) : xs = ys := by
  induction hx generalizing ys with
  | nil => cases hy; rfl
  | cons hx _ ih =>
    cases hy with
    | cons hy hys => rw [h _ _ _ hx hy, ih hys]

theorem Compatibility.Spelled.unique {value : Value} {claim' : Compatibility}
    (h : Compatibility.Spelled positional value claim)
    (h' : Compatibility.Spelled positional value claim') : claim = claim' := by
  have harray (compiler profile : String) (targets : List Value) (claim : Compatibility) :
      .array [.string compiler, .string profile, .array targets] ≠ claim.toValue := nofun
  generalize hvalue : value = value' at h'
  cases h with
  | object =>
    cases h' with
    | object => exact Compatibility.toValue_inj hvalue
    | array => exact absurd hvalue.symm (harray _ _ _ _)
  | array =>
    cases h' with
    | object => exact absurd hvalue (harray _ _ _ _)
    | array =>
      obtain ⟨compiler, profile, targets⟩ := claim
      obtain ⟨compiler', profile', targets'⟩ := claim'
      simp only [Value.array.injEq, List.cons.injEq, Value.string.injEq, and_true] at hvalue
      obtain ⟨rfl, rfl, htargets⟩ := hvalue
      rw [map_injective_iff.mpr (fun _ _ h => Value.string.inj h) htargets]

theorem LockEdge.Spelled.unique {value : Value} {edge' : LockEdge}
    (h : LockEdge.Spelled positional value edge) (h' : LockEdge.Spelled positional value edge') :
    edge = edge' := by
  obtain ⟨aliasName, package⟩ := edge
  obtain ⟨aliasName', package'⟩ := edge'
  generalize hvalue : value = value' at h'
  cases h <;> cases h' <;> simp_all [LockEdge.toValue]

theorem LockPackage.Spelled.unique {value : Value} {package' : LockPackage}
    (h : LockPackage.Spelled positional value package)
    (h' : LockPackage.Spelled positional value package') : package = package' := by
  cases h with
  | object hedges =>
    cases h' with
    | object hedges' => rw [eq_of_forall₂ (fun _ _ _ hx hy => hx.unique hy) hedges hedges']
  | array _ hedges =>
    cases h' with
    | array _ hedges' => rw [eq_of_forall₂ (fun _ _ _ hx hy => hx.unique hy) hedges hedges']

theorem Lock.Spelled.unique {value : Value} {lock lock' : Lock}
    (h : Lock.Spelled positional value lock) (h' : Lock.Spelled positional value lock') :
    lock = lock' := by
  cases h with
  | object hclaim hitems =>
    cases h' with
    | object hclaim' hitems' =>
      rw [hclaim.unique hclaim',
        eq_of_forall₂ (fun _ _ _ hx hy => hx.unique hy) hitems hitems']
  | array _ hclaim hitems =>
    cases h' with
    | array _ hclaim' hitems' =>
      rw [hclaim.unique hclaim',
        eq_of_forall₂ (fun _ _ _ hx hy => hx.unique hy) hitems hitems']

/-! ### Plain text -/

theorem length_le_utf8Length (text : List Char) : text.length ≤ utf8Length text := by
  induction text with
  | nil => exact Nat.zero_le _
  | cons c text ih =>
    have hpos := c.utf8Size_pos
    simp only [utf8Length, map_cons, sum_cons, length_cons] at ih ⊢
    omega

/-- A text of characters that stand for themselves. -/
structure Plain (text : String) (length : ℕ) : Prop where
  plain : ∀ c ∈ text.toList, plain c = true
  length_le : text.toList.length ≤ length

variable {c : Char} {text : String}

theorem plain_of_between {low high : Char} (h : (low ≤ c && c ≤ high) = true)
    (hlow : 35 ≤ low.toNat) (hhigh : high.toNat < 128) (hslash : 92 < low.toNat ∨ high.toNat < 92) :
    plain c = true := by
  rw [Bool.and_eq_true, decide_eq_true_eq, decide_eq_true_eq, Char.le_def, Char.le_def,
    UInt32.le_iff_toNat_le, UInt32.le_iff_toNat_le] at h
  have hle : low.toNat ≤ c.toNat ∧ c.toNat ≤ high.toNat := h
  refine plain_of_printable (by omega) (by omega) ?_ ?_
  · rintro rfl
    have : ('"' : Char).toNat = 34 := rfl
    omega
  · rintro rfl
    have : ('\\' : Char).toNat = 92 := rfl
    omega

theorem plain_of_isAsciiDigit (h : isAsciiDigit c = true) : plain c = true :=
  plain_of_between h (by decide) (by decide) (by decide)

theorem plain_of_isAsciiLowercase (h : isAsciiLowercase c = true) : plain c = true :=
  plain_of_between h (by decide) (by decide) (by decide)

theorem plain_of_isDigest (h : isDigest text = true) : Plain text 64 := by
  simp only [isDigest, Bool.and_eq_true, decide_eq_true_eq, List.all_eq_true] at h
  refine ⟨fun c hc => ?_, h.1 ▸ length_le_utf8Length _⟩
  have hdigit := h.2 c hc
  rw [isHexDigit, Bool.or_eq_true] at hdigit
  exact hdigit.elim plain_of_isAsciiDigit fun h =>
    plain_of_between h (by decide) (by decide) (by decide)

theorem plain_of_name (h : name text = .ok ()) : Plain text 64 := by
  unfold name at h
  dsimp only at h
  rw [ite_error_eq_ok, not_or, not_or, not_or] at h
  obtain ⟨⟨-, hlength, -, hall⟩, -⟩ := h
  rw [not_not, List.all_eq_true] at hall
  refine ⟨fun c hc => ?_, (length_le_utf8Length _).trans (by omega)⟩
  have hchar := hall c hc
  simp only [Bool.or_eq_true, decide_eq_true_eq] at hchar
  obtain (hlower | hdigit) | rfl := hchar
  · exact plain_of_isAsciiLowercase hlower
  · exact plain_of_isAsciiDigit hdigit
  · decide

/-- A character of a text is a separator or one of a part. -/
theorem mem_splitOn {α : Type} [BEq α] [LawfulBEq α] {x y : α} {xs : List α} (h : y ∈ xs) :
    y = x ∨ ∃ part ∈ xs.splitOn x, y ∈ part := by
  rw [← @List.intercalate_splitOn _ xs _ _ x] at h
  generalize xs.splitOn x = parts at h ⊢
  induction parts with
  | nil => simp at h
  | cons part parts ih =>
    cases parts with
    | nil => exact .inr ⟨part, List.mem_cons_self, by simpa using h⟩
    | cons next parts =>
      rw [List.intercalate_cons_cons, List.mem_append, List.mem_append, List.mem_singleton] at h
      obtain (hy | rfl) | hy := h
      · exact .inr ⟨part, List.mem_cons_self, hy⟩
      · exact .inl rfl
      · exact (ih hy).imp_right fun ⟨other, hother, hy⟩ =>
          ⟨other, List.mem_cons_of_mem _ hother, hy⟩

theorem plain_of_version (h : version text = .ok ()) : Plain text 14 := by
  unfold version at h
  dsimp only at h
  rw [ite_error_eq_ok, not_or, not_or] at h
  obtain ⟨⟨-, hlength, hparts⟩, -⟩ := h
  refine ⟨fun c hc => ?_, (length_le_utf8Length _).trans (by omega)⟩
  obtain rfl | ⟨part, hpart, hmem⟩ := mem_splitOn (x := '.') hc
  · decide
  · simp only [List.any_eq_true, not_exists, not_and] at hparts
    have hdigits := hparts part hpart
    simp only [Bool.or_eq_true, not_or, Bool.not_eq_true', Bool.not_eq_false,
      List.all_eq_true] at hdigits
    exact plain_of_isAsciiDigit (hdigits.1.2 c hmem)

theorem plain_of_compatibility {value : Compatibility}
    (h : compatibility value = .ok ()) : Plain value.compiler 14 ∧ Plain value.profile 17
      ∧ value.targets.length ≤ 3 ∧ ∀ target ∈ value.targets, Plain target 19 := by
  unfold compatibility at h
  simp only [bind_eq_ok, ite_error_bind_eq_ok, ite_error_eq_ok] at h
  obtain ⟨⟨⟩, hversion, hprofile, hcount, ⟨⟩, -, htargets, -⟩ := h
  refine ⟨plain_of_version hversion, ?_, ?_, fun target htarget => ?_⟩
  · have hall : ["i32-v1", "control-flow-v1", "data-ownership-v1"].all (fun text =>
        text.toList.all plain && text.toList.length ≤ 17) = true := rfl
    have hplain := List.all_eq_true.mp hall value.profile (not_not.mp hprofile)
    rw [Bool.and_eq_true, List.all_eq_true, decide_eq_true_eq] at hplain
    exact ⟨hplain.1, hplain.2⟩
  · omega
  · have hall : ["javascript", "native-linux-x86_64", "webassembly"].all (fun text =>
        text.toList.all plain && text.toList.length ≤ 19) = true := rfl
    simp only [List.any_eq_true, not_exists, not_and, decide_eq_true_eq, not_not] at htargets
    have hplain := List.all_eq_true.mp hall target (htargets target htarget)
    rw [Bool.and_eq_true, List.all_eq_true, decide_eq_true_eq] at hplain
    exact ⟨hplain.1, hplain.2⟩

/-! ### Size -/

/-- A value of bounded size and depth. -/
structure Fits (value : Value) (size depth : ℕ) : Prop where
  wellFormed : value.WellFormed
  length_le : (writeBytes value).length ≤ size
  nesting_le : value.nesting ≤ depth

theorem Plain.fits (h : Plain text n) : Fits (.string text) (n + 2) 0 :=
  ⟨trivial, length_writeBytes_string h.plain ▸ Nat.add_le_add_right h.length_le 2, le_rfl⟩

theorem Fits.mono {value : Value} {e : ℕ} (h : Fits value m d) (hm : m ≤ n) (hd : d ≤ e) :
    Fits value n e :=
  ⟨h.wellFormed, h.length_le.trans hm, h.nesting_le.trans hd⟩

/-- The members of an object of bounded size and depth. -/
structure MembersFit (members : List (String × Value)) (size depth : ℕ) : Prop where
  wellFormed : MembersWellFormed members
  length_le : (members.map fun member => (writeBytes (.string member.1)).length
    + (writeBytes member.2).length + 2).sum ≤ size
  nesting_le : membersNesting members ≤ depth

theorem MembersFit.nil : MembersFit [] 0 d := ⟨trivial, le_rfl, Nat.zero_le d⟩

variable {members : List (String × Value)}

theorem MembersFit.cons {key : String} {value : Value}
    (hkey : Plain key k) (hvalue : Fits value m d) (h : MembersFit members n d) :
    MembersFit ((key, value) :: members) (k + m + 4 + n) d := by
  refine ⟨⟨hvalue.wellFormed, h.wellFormed⟩, ?_, Nat.max_le.mpr ⟨hvalue.nesting_le, h.nesting_le⟩⟩
  have hkeyLength := hkey.fits.length_le
  have hvalueLength := hvalue.length_le
  have hlength := h.length_le
  rw [List.map_cons, List.sum_cons]
  dsimp only
  omega

theorem MembersFit.fits (h : MembersFit members n d) : Fits (.object members) (n + 2) (d + 1) :=
  ⟨h.wellFormed, (length_writeBytes_object members).trans (Nat.add_le_add_right h.length_le 2),
    Nat.succ_le_succ h.nesting_le⟩

/-- The items of an array of bounded size and depth. -/
structure ItemsFit (items : List Value) (size depth : ℕ) : Prop where
  wellFormed : ItemsWellFormed items
  length_le : (items.map fun item => (writeBytes item).length + 1).sum ≤ size
  nesting_le : itemsNesting items ≤ depth

theorem ItemsFit.nil : ItemsFit [] 0 d := ⟨trivial, le_rfl, Nat.zero_le d⟩

variable {items : List Value}

theorem ItemsFit.cons {item : Value} (hitem : Fits item m d)
    (h : ItemsFit items n d) : ItemsFit (item :: items) (m + 1 + n) d := by
  refine ⟨⟨hitem.wellFormed, h.wellFormed⟩, ?_, Nat.max_le.mpr ⟨hitem.nesting_le, h.nesting_le⟩⟩
  rw [List.map_cons, List.sum_cons]
  exact Nat.add_le_add (Nat.add_le_add_right hitem.length_le 1) h.length_le

theorem ItemsFit.fits (h : ItemsFit items n d) : Fits (.array items) (n + 2) (d + 1) :=
  ⟨h.wellFormed, (length_writeBytes_array items).trans (Nat.add_le_add_right h.length_le 2),
    Nat.succ_le_succ h.nesting_le⟩

/-- Items alike of bounded size and depth. -/
theorem fits_array (hk : items.length ≤ k)
    (h : ∀ item ∈ items, Fits item n d) : Fits (.array items) (k * (n + 1) + 2) (d + 1) := by
  have hitems : ItemsFit items (items.length * (n + 1)) d := by
    clear hk
    induction items with
    | nil => exact ⟨trivial, Nat.zero_le _, Nat.zero_le d⟩
    | cons item items ih =>
      obtain ⟨hitem, hitems⟩ := List.forall_mem_cons.mp h
      rw [List.length_cons, Nat.add_mul, Nat.one_mul, Nat.add_comm (items.length * (n + 1))]
      exact .cons hitem (ih hitems)
  exact hitems.fits.mono (Nat.add_le_add_right (Nat.mul_le_mul_right _ hk) 2) le_rfl

/-! ### Locks of a valid shape -/

section Shape

variable {positional : Prop} {value : Value}

theorem plain_key (key : String) (n : ℕ)
    (h : (key.toList.all plain && key.toList.length ≤ n) = true) : Plain key n := by
  rw [Bool.and_eq_true, List.all_eq_true, decide_eq_true_eq] at h
  exact ⟨h.1, h.2⟩

theorem Compatibility.Spelled.fits {claim : Compatibility}
    (h : Compatibility.Spelled positional value claim)
    (hclaim : compatibility claim = .ok ()) : Fits value 160 2 := by
  obtain ⟨hcompiler, hprofile, hcount, htargets⟩ := plain_of_compatibility hclaim
  have hlist : Fits (.array (claim.targets.map .string)) (3 * (21 + 1) + 2) (0 + 1) := by
    refine fits_array (by rwa [List.length_map]) fun item hitem => ?_
    obtain ⟨target, htarget, rfl⟩ := List.mem_map.mp hitem
    exact (htargets target htarget).fits
  have hc := hcompiler.fits.mono le_rfl (Nat.zero_le 1)
  have hp := hprofile.fits.mono le_rfl (Nat.zero_le 1)
  cases h with
  | object =>
    have hmembers := MembersFit.cons (plain_key "compiler" 13 rfl) hc <|
      .cons (plain_key "profile" 13 rfl) hp <|
      .cons (plain_key "targets" 13 rfl) hlist .nil
    exact hmembers.fits.mono (by omega) le_rfl
  | array => exact (ItemsFit.cons hc (.cons hp (.cons hlist .nil))).fits.mono (by omega) le_rfl

theorem LockEdge.Spelled.fits {edge : LockEdge} (h : LockEdge.Spelled positional value edge)
    (hedge : lockEdge edge = .ok ()) : Fits value 170 1 := by
  unfold lockEdge at hedge
  simp only [bind_eq_ok, ite_error_eq_ok, not_not] at hedge
  obtain ⟨⟨⟩, hname, hdigest, -⟩ := hedge
  have ha := (plain_of_name hname).fits
  have hp := (plain_of_isDigest hdigest).fits
  cases h with
  | object =>
    have hmembers := MembersFit.cons (plain_key "alias" 13 rfl) ha <|
      .cons (plain_key "package" 13 rfl) hp .nil
    exact hmembers.fits.mono (by omega) le_rfl
  | array => exact (ItemsFit.cons ha (.cons hp .nil)).fits.mono (by omega) le_rfl

/-- What a list of spellings has, its spellings have one by one. -/
theorem fits_of_forall₂ {α : Type} {R : Value → α → Prop} {p : α → Prop} {n d : ℕ}
    (h : ∀ value x, R value x → p x → Fits value n d) {values : List Value} {xs : List α}
    (hR : List.Forall₂ R values xs) (hp : ∀ x ∈ xs, p x) : ∀ value ∈ values, Fits value n d := by
  intro value hvalue
  obtain ⟨x, hx, hRx⟩ := exists_right hR hvalue
  exact h value x hRx (hp x hx)

theorem LockPackage.Spelled.fits {package : LockPackage}
    (h : LockPackage.Spelled positional value package) (hpackage : lockPackage package = .ok ()) :
    Fits value 1600 3 := by
  unfold lockPackage at hpackage
  simp only [ite_error_bind_eq_ok, not_or, not_not, forM_eq_ok] at hpackage
  obtain ⟨⟨hid, hsha⟩, hcount, -, hedgesOk⟩ := hpackage
  have hi := (plain_of_isDigest hid).fits.mono le_rfl (Nat.zero_le 2)
  have hs := (plain_of_isDigest hsha).fits.mono le_rfl (Nat.zero_le 2)
  have hlist {values : List Value}
      (hedges : List.Forall₂ (LockEdge.Spelled positional) values package.dependencies) :
      Fits (.array values) (8 * (170 + 1) + 2) 2 :=
    fits_array (hedges.length_eq ▸ Nat.not_lt.mp hcount)
      (fits_of_forall₂ (p := fun edge => lockEdge edge = .ok ())
        (fun _ _ hspelled hedge => hspelled.fits hedge) hedges hedgesOk)
  cases h with
  | object hedges =>
    have hmembers := MembersFit.cons (plain_key "dependencies" 13 rfl)
      (hlist hedges) <| .cons (plain_key "id" 13 rfl) hi <|
      .cons (plain_key "sourceSha256" 13 rfl) hs .nil
    exact hmembers.fits.mono (by omega) le_rfl
  | array _ hedges =>
    exact (ItemsFit.cons hi (.cons hs (.cons (hlist hedges) .nil))).fits.mono (by omega) le_rfl

theorem Lock.Spelled.fits {lock : Lock} (h : Lock.Spelled positional value lock)
    (hlock : validateLockShape lock = .ok ()) : Fits value 30000 5 := by
  unfold validateLockShape at hlock
  simp only [bind_eq_ok, ite_error_bind_eq_ok, not_or, not_not,
    forM_eq_ok] at hlock
  obtain ⟨⟨hformat, hroot⟩, ⟨⟩, hcompatibility, ⟨-, hcount⟩, -, hpackages⟩ := hlock
  have hf : Fits (.string lock.format) (13 + 2) 4 := by
    rw [hformat]
    exact (plain_key "zryna.lock.v1" 13 rfl).fits.mono le_rfl (Nat.zero_le 4)
  have hr := (plain_of_isDigest hroot).fits.mono le_rfl (Nat.zero_le 4)
  have hlist {values : List Value}
      (hitems : List.Forall₂ (LockPackage.Spelled positional) values lock.packages) :
      Fits (.array values) (16 * (1600 + 1) + 2) 4 :=
    fits_array (hitems.length_eq ▸ Nat.not_lt.mp hcount)
      (fits_of_forall₂ (p := fun package => lockPackage package = .ok ())
        (fun _ _ hspelled hpackage => hspelled.fits hpackage) hitems hpackages)
  cases h with
  | object hclaim hitems =>
    have hc := (hclaim.fits hcompatibility).mono le_rfl (show 2 ≤ 4 by decide)
    have hmembers := MembersFit.cons (plain_key "compatibility" 13 rfl) hc <|
      .cons (plain_key "format" 13 rfl) hf <|
      .cons (plain_key "packages" 13 rfl) (hlist hitems) <|
      .cons (plain_key "root" 13 rfl) hr .nil
    exact hmembers.fits.mono (by omega) le_rfl
  | array _ hclaim hitems =>
    have hc := (hclaim.fits hcompatibility).mono le_rfl (show 2 ≤ 4 by decide)
    exact (ItemsFit.cons hf (.cons hr (.cons hc (.cons (hlist hitems) .nil)))).fits.mono
      (by omega) le_rfl

end Shape

/-! ### Reading -/

/-- How records are read: what is written for a lock is read back as the value it was written
from, and from a value as the lock that it spells. -/
structure ReadsLocks (serde : Serde) : Prop where
  fromSlice : ∀ value lock, Lock.Spelled True value lock →
    serde.fromSlice (encode value) = some value
  lock : ∀ value lock, serde.lock value = some lock ↔ Lock.Spelled True value lock

/-- A lock of a valid shape is read back from any of its spellings. -/
theorem parse_of_spelled {serde : Serde} (hserde : ReadsLocks serde) {value : Value} {lock : Lock}
    (h : Lock.Spelled True value lock) (hlock : validateLockShape lock = .ok ()) :
    parse serde serde.lock (encode value) = .ok lock := by
  have hfits := h.fits hlock
  refine parse_eq_ok.mpr ⟨?_, checkDepth_encode hfits.wellFormed (hfits.nesting_le.trans (by decide)),
    value, hserde.fromSlice value lock h, rfl, (hserde.lock value lock).mpr h⟩
  have hlength := hfits.length_le
  rw [encode, length_append, length_singleton, maxWireBytes]
  omega

end Zryna.Package
