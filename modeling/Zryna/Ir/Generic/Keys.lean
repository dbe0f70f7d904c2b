import Zryna.Foundation.Checked
import Zryna.Ir.Generic.Terms

/-!
# The key decoder

Decoding of complete canonical keys, with the explicit stack of the source. What is left of the
input stands for the cursor. `decode_eq_ok_iff` says that exactly the keys of closed terms within
the limits are accepted, and what is returned for them.
-/

namespace Zryna.Ir.Generic

open Checked List

/-- Atomic validation failure. Allocation failure is not modelled. -/
inductive Failure where
  | diagnostics (code message guidance : String)
  | internalFailure
deriving DecidableEq

def reject (message : String) : Failure :=
  .diagnostics "ZRYNA-I7001" message
    "provide exact closed successor claims from authenticated source"

def budget (message : String) : Failure :=
  .diagnostics "ZRYNA-I3201" message "stay within the inherited and closed-instantiation ceilings"

namespace Keys

/-- Fully decoded root shape. -/
inductive Kind where
  | bool
  | i32
  | string
  | struct
  | enum
  | genericStruct
  | genericEnum
  | option
  | result
  | fixedArray (length : UInt32)
  | vec
  | shared
  | weak
  | functionInstance
  | sourceRoot
deriving DecidableEq

structure DecodedKey where
  kind : Kind
  declaration : Option Declaration
  arguments : List (List UInt8)
  depth : ℕ
deriving DecidableEq

structure Header where
  kind : Kind
  declaration : Option Declaration
  children : List (List UInt8)
  application : Bool
deriving DecidableEq

/-- The ceiling of array lengths, inherited from the layouts. -/
def maxArrayLength : ℕ := 1048576

def lane (input : List UInt8) : Except Failure (UInt32 × List UInt8) :=
  match takeLane input with
  | some found => .ok found
  | none => .error (reject "truncated unsigned little-endian key lane")

/-- What a tag and the lanes after it say: the kind, the declaration, the number of children and
whether the term is an application. -/
structure Lead where
  kind : Kind
  declaration : Option Declaration
  count : UInt32
  application : Bool
deriving DecidableEq

def declaration (input : List UInt8) : Except Failure (Declaration × List UInt8) := do
  let (module, input) ← lane input
  let (index, input) ← lane input
  .ok ((module, index), input)

/-- A declaration without type parameters. -/
def nominal (kind : Kind) (input : List UInt8) : Except Failure (Lead × List UInt8) := do
  let (declaration, input) ← declaration input
  .ok (⟨kind, some declaration, 0, false⟩, input)

/-- A generic declaration, with its arity. -/
def genericNominal (kind : Kind) (application : Bool) (input : List UInt8) :
    Except Failure (Lead × List UInt8) := do
  let (declaration, input) ← declaration input
  let (count, input) ← lane input
  if ¬(1 ≤ count ∧ count ≤ 2) then
    .error (reject "generic nominal/function key arity is not one or two")
  else
    .ok (⟨kind, some declaration, count, application⟩, input)

/-- A family of the compiler has a fixed arity. -/
def compilerEnum (kind : Kind) (expected : UInt32) (input : List UInt8) :
    Except Failure (Lead × List UInt8) := do
  let (count, input) ← lane input
  if count ≠ expected then
    .error (reject "compiler enum key arity differs from its reserved family")
  else
    .ok (⟨kind, none, count, true⟩, input)

def lead (tag : UInt8) (input : List UInt8) : Except Failure (Lead × List UInt8) :=
  match tag with
  | 0x00 => .ok (⟨.bool, none, 0, false⟩, input)
  | 0x01 => .ok (⟨.i32, none, 0, false⟩, input)
  | 0x02 => .ok (⟨.string, none, 0, false⟩, input)
  | 0x10 => nominal .struct input
  | 0x11 => nominal .enum input
  | 0x12 => genericNominal .genericStruct true input
  | 0x13 => genericNominal .genericEnum true input
  | 0x40 => genericNominal .functionInstance false input
  | 0x41 => nominal .sourceRoot input
  | 0x14 => compilerEnum .option 1 input
  | 0x15 => compilerEnum .result 2 input
  | 0x20 => do
    let (length, input) ← lane input
    if length.toNat > maxArrayLength then
      .error (reject "array length exceeds the inherited element ceiling")
    else
      .ok (⟨.fixedArray length, none, 1, true⟩, input)
  | 0x21 => .ok (⟨.vec, none, 1, true⟩, input)
  | 0x22 => .ok (⟨.shared, none, 1, true⟩, input)
  | 0x23 => .ok (⟨.weak, none, 1, true⟩, input)
  | _ => .error (reject "unknown, borrow or unresolved complete key tag")

/-- The keys of the children, each after its length. -/
def childKeys : ℕ → List UInt8 → Except Failure (List (List UInt8) × List UInt8)
  | 0, input => .ok ([], input)
  | count + 1, input => do
    let (length, input) ← lane input
    if length.toNat = 0 ∨ input.length < length.toNat then
      .error (reject "truncated, empty or overflowing complete child key")
    else
      let (children, rest) ← childKeys count (input.drop length.toNat)
      .ok (input.take length.toNat :: children, rest)

/-- Whether a key of a domain may start with a tag. -/
def permitted (domain : Domain) (tag : UInt8) : Bool :=
  match domain with
  | .type => tag < 0x40
  | .functionInstance => tag = 0x40
  | .sourceRoot => tag = 0x41

def header (bytes : List UInt8) (domain : Domain) : Except Failure Header :=
  match bytes with
  | [] => .error (reject "empty complete key")
  | tag :: input =>
    if !permitted domain tag then .error (reject "function/type key namespace mismatch")
    else do
      let (lead, input) ← lead tag input
      let (children, rest) ← childKeys lead.count.toNat input
      if rest ≠ [] then .error (reject "trailing key bytes or invented child lane")
      else .ok ⟨lead.kind, lead.declaration, children, lead.application⟩

/-! ### Headers -/

end Keys

/-- The kind of a term, as its key is decoded. -/
def Constructor.kind : Constructor → Keys.Kind
  | .type .bool => .bool
  | .type .i32 => .i32
  | .type .string => .string
  | .type (.struct _) => .struct
  | .type (.enum _) => .enum
  | .type (.genericStruct _ _) => .genericStruct
  | .type (.genericEnum _ _) => .genericEnum
  | .type .option => .option
  | .type .result => .result
  | .type (.fixedArray length) => .fixedArray length
  | .type .vec => .vec
  | .type .shared => .shared
  | .type .weak => .weak
  | .functionInstance _ _ => .functionInstance
  | .sourceRoot _ => .sourceRoot

/-- The declaration of a term; a family of the compiler has none. -/
def Constructor.declaration : Constructor → Option Declaration
  | .type (.struct declaration) | .type (.enum declaration)
  | .type (.genericStruct declaration _) | .type (.genericEnum declaration _)
  | .functionInstance declaration _ | .sourceRoot declaration => some declaration
  | .type _ => none

namespace Keys

variable {input rest : List UInt8} {found : Lead} {kind : Kind} {children : List (List UInt8)}
  {domain : Domain} {reached : ℕ}

theorem lane_eq_ok {value : UInt32} :
    lane input = .ok (value, rest) ↔ input = laneBytes value ++ rest := by
  rw [lane, ← takeLane_eq_some]
  cases takeLane input <;> simp

theorem declaration_eq_ok {found : Declaration} :
    declaration input = .ok (found, rest)
      ↔ input = laneBytes found.1 ++ (laneBytes found.2 ++ rest) := by
  simp only [declaration, bind_eq_ok, Prod.exists, lane_eq_ok, Except.ok.injEq,
    Prod.ext_iff]
  constructor
  · rintro ⟨_, -, rfl, _, -, rfl, ⟨rfl, rfl⟩, rfl⟩
    rfl
  · rintro rfl
    exact ⟨_, _, rfl, _, _, rfl, ⟨rfl, rfl⟩, rfl⟩

/-- The arity lane of a generic declaration. -/
theorem exists_arity {count : UInt32} : (1 ≤ count ∧ count ≤ 2) ↔ ∃ a : Arity, a.lane = count := by
  constructor
  · rintro ⟨hone, htwo⟩
    rw [UInt32.le_iff_toNat_le] at hone htwo
    have hcases : count.toNat = 1 ∨ count.toNat = 2 := by
      have h1 : (1 : UInt32).toNat = 1 := rfl
      have h2 : (2 : UInt32).toNat = 2 := rfl
      omega
    obtain h | h := hcases
    · exact ⟨.one, UInt32.toNat_inj.mp h.symm⟩
    · exact ⟨.two, UInt32.toNat_inj.mp h.symm⟩
  · rintro ⟨a, rfl⟩
    cases a <;> decide

/-- What the lead of a constructor says. -/
def leadOf (c : Constructor) : Lead := ⟨c.kind, c.declaration, c.count, c.application⟩

theorem nominal_eq_ok :
    nominal kind input = .ok (found, rest) ↔ ∃ declaration : Declaration,
      input = laneBytes declaration.1 ++ (laneBytes declaration.2 ++ rest)
        ∧ ⟨kind, some declaration, 0, false⟩ = found := by
  simp only [nominal, bind_eq_ok, Prod.exists (α := Declaration), declaration_eq_ok,
    Except.ok.injEq, Prod.mk.injEq]
  constructor
  · rintro ⟨declaration, -, rfl, rfl, rfl⟩
    exact ⟨declaration, rfl, rfl⟩
  · rintro ⟨declaration, rfl, rfl⟩
    exact ⟨declaration, _, rfl, rfl, rfl⟩

theorem genericNominal_eq_ok {application : Bool} :
    genericNominal kind application input = .ok (found, rest)
      ↔ ∃ (declaration : Declaration) (arity : Arity),
        input = laneBytes declaration.1 ++ (laneBytes declaration.2 ++ (laneBytes arity.lane ++ rest))
          ∧ ⟨kind, some declaration, arity.lane, application⟩ = found := by
  simp only [genericNominal, bind_eq_ok, Prod.exists (α := Declaration),
    Prod.exists (α := UInt32), declaration_eq_ok, lane_eq_ok, ite_error_eq_ok, not_not,
    exists_arity, Except.ok.injEq, Prod.mk.injEq]
  constructor
  · rintro ⟨module, index, -, rfl, -, -, rfl, ⟨arity, rfl⟩, rfl, rfl⟩
    exact ⟨module, index, arity, rfl, rfl⟩
  · rintro ⟨module, index, arity, rfl, rfl⟩
    exact ⟨module, index, _, rfl, _, _, rfl, ⟨arity, rfl⟩, rfl, rfl⟩

theorem compilerEnum_eq_ok {expected : UInt32} :
    compilerEnum kind expected input = .ok (found, rest)
      ↔ input = laneBytes expected ++ rest ∧ ⟨kind, none, expected, true⟩ = found := by
  simp only [compilerEnum, bind_eq_ok, Prod.exists, lane_eq_ok, ite_error_eq_ok,
    not_not, Except.ok.injEq, Prod.mk.injEq]
  constructor
  · rintro ⟨_, -, rfl, rfl, rfl, rfl⟩
    exact ⟨rfl, rfl⟩
  · rintro ⟨rfl, rfl⟩
    exact ⟨_, _, rfl, rfl, rfl, rfl⟩

theorem one_lane (a : UInt32) (rest : List UInt8) :
    [a].flatMap laneBytes ++ rest = laneBytes a ++ rest := by
  simp

theorem two_lanes (a b : UInt32) (rest : List UInt8) :
    [a, b].flatMap laneBytes ++ rest = laneBytes a ++ (laneBytes b ++ rest) := by
  simp

theorem three_lanes (a b c : UInt32) (rest : List UInt8) :
    [a, b, c].flatMap laneBytes ++ rest
      = laneBytes a ++ (laneBytes b ++ (laneBytes c ++ rest)) := by
  simp

theorem lead_sound {tag : UInt8}
    (h : lead tag input = .ok (found, rest)) : ∃ c : Constructor, c.tag = tag
      ∧ c.arrayLength.toNat ≤ maxArrayLength ∧ input = c.lanes.flatMap laneBytes ++ rest
      ∧ leadOf c = found := by
  have leaf : ∀ c : TypeConstructor, c.lanes = [] →
      (.ok (leadOf (.type c), input) : Except Failure _) = .ok (found, rest) →
      input = (Constructor.type c).lanes.flatMap laneBytes ++ rest ∧ leadOf (.type c) = found := by
    intro c hlanes h
    rw [Except.ok.injEq, Prod.mk.injEq] at h
    exact ⟨by rw [Constructor.lanes, hlanes, h.2]; rfl, h.1⟩
  unfold lead at h
  split at h
  · exact ⟨.type .bool, rfl, Nat.zero_le _, leaf .bool rfl h⟩
  · exact ⟨.type .i32, rfl, Nat.zero_le _, leaf .i32 rfl h⟩
  · exact ⟨.type .string, rfl, Nat.zero_le _, leaf .string rfl h⟩
  · rw [nominal_eq_ok] at h
    obtain ⟨declaration, rfl, rfl⟩ := h
    exact ⟨.type (.struct declaration), rfl, Nat.zero_le _, (two_lanes ..).symm, rfl⟩
  · rw [nominal_eq_ok] at h
    obtain ⟨declaration, rfl, rfl⟩ := h
    exact ⟨.type (.enum declaration), rfl, Nat.zero_le _, (two_lanes ..).symm, rfl⟩
  · rw [genericNominal_eq_ok] at h
    obtain ⟨declaration, arity, rfl, rfl⟩ := h
    refine ⟨.type (.genericStruct declaration arity), rfl, Nat.zero_le _, (three_lanes ..).symm, ?_⟩
    cases arity <;> rfl
  · rw [genericNominal_eq_ok] at h
    obtain ⟨declaration, arity, rfl, rfl⟩ := h
    refine ⟨.type (.genericEnum declaration arity), rfl, Nat.zero_le _, (three_lanes ..).symm, ?_⟩
    cases arity <;> rfl
  · rw [genericNominal_eq_ok] at h
    obtain ⟨declaration, arity, rfl, rfl⟩ := h
    exact ⟨.functionInstance declaration arity, rfl, Nat.zero_le _, (three_lanes ..).symm, rfl⟩
  · rw [nominal_eq_ok] at h
    obtain ⟨declaration, rfl, rfl⟩ := h
    exact ⟨.sourceRoot declaration, rfl, Nat.zero_le _, (two_lanes ..).symm, rfl⟩
  · rw [compilerEnum_eq_ok] at h
    obtain ⟨rfl, rfl⟩ := h
    exact ⟨.type .option, rfl, Nat.zero_le _, (one_lane ..).symm, rfl⟩
  · rw [compilerEnum_eq_ok] at h
    obtain ⟨rfl, rfl⟩ := h
    exact ⟨.type .result, rfl, Nat.zero_le _, (one_lane ..).symm, rfl⟩
  · simp only [bind_eq_ok, Prod.exists, lane_eq_ok, ite_error_eq_ok, not_lt,
      Except.ok.injEq, Prod.mk.injEq] at h
    obtain ⟨length, _, rfl, hlength, rfl, rfl⟩ := h
    exact ⟨.type (.fixedArray length), rfl, hlength, (one_lane ..).symm, rfl⟩
  · exact ⟨.type .vec, rfl, Nat.zero_le _, leaf .vec rfl h⟩
  · exact ⟨.type .shared, rfl, Nat.zero_le _, leaf .shared rfl h⟩
  · exact ⟨.type .weak, rfl, Nat.zero_le _, leaf .weak rfl h⟩
  · cases h

/-- The lead of a constructor is accepted when its array length is within the ceiling. -/
theorem lead_complete (c : Constructor) (hlength : c.arrayLength.toNat ≤ maxArrayLength)
    (rest : List UInt8) :
    lead c.tag (c.lanes.flatMap laneBytes ++ rest) = .ok (leadOf c, rest) := by
  cases c with
  | type c =>
    cases c with
    | bool | i32 | string | vec | shared | weak => rfl
    | struct declaration | enum declaration =>
      show nominal .. = _
      rw [nominal_eq_ok]
      exact ⟨declaration, two_lanes .., rfl⟩
    | genericStruct declaration arity | genericEnum declaration arity =>
      show genericNominal .. = _
      rw [genericNominal_eq_ok]
      refine ⟨declaration, arity, three_lanes .., ?_⟩
      cases arity <;> rfl
    | option | result =>
      show compilerEnum .. = _
      rw [compilerEnum_eq_ok]
      exact ⟨one_lane .., rfl⟩
    | fixedArray length =>
      simp only [Constructor.lanes, TypeConstructor.lanes, one_lane]
      show (lane _ >>= _) = _
      rw [lane_eq_ok.mpr rfl]
      exact if_neg hlength.not_gt
  | functionInstance declaration arity =>
    show genericNominal .. = _
    rw [genericNominal_eq_ok]
    exact ⟨declaration, arity, three_lanes .., rfl⟩
  | sourceRoot declaration =>
    show nominal .. = _
    rw [nominal_eq_ok]
    exact ⟨declaration, two_lanes .., rfl⟩

/-- The children are read where each stands after its length. -/
theorem childKeys_eq_ok {count : ℕ} :
    childKeys count input = .ok (children, rest) ↔ children.length = count
      ∧ (∀ child ∈ children, child ≠ [] ∧ child.length < 2 ^ 32)
      ∧ input = children.flatMap framed ++ rest := by
  induction count generalizing input rest children with
  | zero =>
    simp only [childKeys, Except.ok.injEq, Prod.mk.injEq, length_eq_zero_iff]
    constructor
    · rintro ⟨rfl, rfl⟩
      exact ⟨rfl, forall_mem_nil _, rfl⟩
    · rintro ⟨rfl, -, rfl⟩
      exact ⟨rfl, rfl⟩
  | succ count ih =>
    simp only [childKeys, bind_eq_ok, Prod.exists, lane_eq_ok, ite_error_eq_ok, ih,
      not_or, not_lt, Except.ok.injEq, Prod.mk.injEq]
    constructor
    · rintro ⟨length, input, rfl, ⟨hempty, hlength⟩, children, _, ⟨rfl, hchildren, hdrop⟩, rfl, rfl⟩
      have htake : (input.take length.toNat).length = length.toNat := length_take_of_le hlength
      refine ⟨rfl, forall_mem_cons.mpr ⟨⟨?_, ?_⟩, hchildren⟩, ?_⟩
      · exact ne_nil_of_length_pos (by omega)
      · rw [htake]
        exact length.toNat_lt
      · rw [flatMap_cons, framed, htake, UInt32.ofNat_toNat, append_assoc,
          append_assoc, ← hdrop, take_append_drop]
    · rintro ⟨hcount, hchildren, rfl⟩
      cases children with
      | nil => cases hcount
      | cons child children =>
        obtain ⟨⟨hne, hlength⟩, hchildren⟩ := forall_mem_cons.mp hchildren
        have htoNat : (UInt32.ofNat child.length).toNat = child.length :=
          UInt32.toNat_ofNat_of_lt' hlength
        refine ⟨.ofNat child.length, child ++ (children.flatMap framed ++ rest), ?_, ?_, children,
          rest, ⟨Nat.succ.inj hcount, hchildren, ?_⟩, ?_, rfl⟩
        · simp only [flatMap_cons, framed, append_assoc]
        · rw [htoNat, length_append]
          exact ⟨fun h => hne (eq_nil_of_length_eq_zero h), Nat.le_add_right ..⟩
        · rw [htoNat, drop_left]
        · rw [htoNat, take_left]

theorem permitted_tag (domain : Domain) (c : Constructor) :
    permitted domain c.tag = true ↔ c.domain = domain := by
  cases c with
  | type c =>
    have hlt := c.tag_lt
    have hinstance := c.tag_ne_instance
    have hroot := c.tag_ne_root
    cases domain <;> simp [permitted, Constructor.tag, Constructor.domain, *]
  | functionInstance declaration arity =>
    cases domain <;> simp [permitted, Constructor.tag, Constructor.domain]
  | sourceRoot declaration =>
    cases domain <;> simp [permitted, Constructor.tag, Constructor.domain]

/-- A header is accepted exactly when the bytes are a constructor of the domain, within the ceiling
of array lengths, over as many nonempty children as it takes. -/
theorem header_eq_ok {bytes : List UInt8} {node : Header} :
    header bytes domain = .ok node ↔ ∃ (c : Constructor) (children : List (List UInt8)),
      c.domain = domain ∧ c.arrayLength.toNat ≤ maxArrayLength
        ∧ children.length = c.count.toNat
        ∧ (∀ child ∈ children, child ≠ [] ∧ child.length < 2 ^ 32)
        ∧ bytes = encodeKey c.tag c.lanes children
        ∧ node = ⟨c.kind, c.declaration, children, c.application⟩ := by
  constructor
  · intro h
    cases bytes with
    | nil => cases h
    | cons tag input =>
      simp only [header, ite_error_eq_ok, bind_eq_ok, Prod.exists, not_not,
        childKeys_eq_ok, Except.ok.injEq, Bool.not_eq_true', Bool.not_eq_false] at h
      obtain ⟨hpermitted, found, rest, hlead, children, _, ⟨hcount, hchildren, rfl⟩, rfl, rfl⟩ := h
      obtain ⟨c, rfl, hlength, rfl, rfl⟩ := lead_sound hlead
      refine ⟨c, children, (permitted_tag domain c).mp hpermitted, hlength, hcount, hchildren, ?_,
        rfl⟩
      rw [encodeKey, append_nil]
  · rintro ⟨c, children, rfl, hlength, hcount, hchildren, rfl, rfl⟩
    simp only [encodeKey, header, (permitted_tag c.domain c).mpr rfl, Bool.not_true,
      Bool.false_eq_true, if_false, lead_complete c hlength]
    have hread := childKeys_eq_ok.mpr ⟨hcount, hchildren, (append_nil _).symm⟩
    exact bind_eq_ok.mpr ⟨_, rfl, bind_eq_ok.mpr ⟨(children, []), hread, rfl⟩⟩

/-- The children of a header are shorter than it, taken together. -/
theorem header_children_lt {bytes : List UInt8} {node : Header}
    (h : header bytes domain = .ok node) : (node.children.map List.length).sum < bytes.length := by
  rw [header_eq_ok] at h
  obtain ⟨c, children, -, -, -, -, rfl, rfl⟩ := h
  rw [encodeKey, length_cons, length_append, length_flatMap_framed]
  show (children.map List.length).sum < _
  omega

/-! ### Decoding -/

/-- Most complete type applications on a path. -/
def maxDepth : ℕ := 64

/-- Most bytes of a complete key. -/
def maxKeyBytes : ℕ := 4096

/-- The loop over the stack of subterms that are still to be checked, each with the depth of its
parent. The top of the stack is the head of the list. -/
def traverse (pending : List (List UInt8 × ℕ)) (depth : ℕ) : Except Failure ℕ :=
  match pending with
  | [] => .ok depth
  | (bytes, parentDepth) :: pending =>
    match h : header bytes .type with
    | .error failure => .error failure
    | .ok node =>
      let current := parentDepth + if node.application then 1 else 0
      if current > maxDepth then
        .error (budget "complete type application depth limit 64; first extra 65")
      else
        have _ := header_children_lt h
        traverse (node.children.map (·, current) ++ pending) (max depth current)
termination_by (pending.map fun entry => entry.1.length).sum
decreasing_by
  simp only [map_append, map_map, sum_append, map_cons, sum_cons]
  exact Nat.add_lt_add_right ‹_› _

def decode (bytes : List UInt8) (domain : Domain) : Except Failure DecodedKey := do
  if bytes.length > maxKeyBytes then
    .error (budget "complete canonical key byte limit 4096; first extra 4097")
  else
    let root ← header bytes domain
    let depth := if root.application then 1 else 0
    let depth ← traverse (root.children.map (·, depth)) depth
    .ok ⟨root.kind, root.declaration, root.children, depth⟩

/-- A subterm on the stack: a closed type and the depth of its parent. -/
def entry (subterm : ClosedType × ℕ) : List UInt8 × ℕ := (subterm.1.key, subterm.2)

/-- The greatest depth that is reached below the subterms on the stack. -/
def deepest (subterms : List (ClosedType × ℕ)) (depth : ℕ) : ℕ :=
  subterms.foldr (fun subterm depth => max (subterm.2 + subterm.1.depth) depth) depth

@[simp] theorem deepest_nil (depth : ℕ) : deepest [] depth = depth := rfl

@[simp] theorem deepest_cons (subterm : ClosedType × ℕ) (subterms : List (ClosedType × ℕ))
    (depth : ℕ) : deepest (subterm :: subterms) depth
      = max (subterm.2 + subterm.1.depth) (deepest subterms depth) := rfl

theorem deepest_max (subterms : List (ClosedType × ℕ)) (depth depth' : ℕ) :
    deepest subterms (max depth depth') = max depth' (deepest subterms depth) := by
  induction subterms with
  | nil => exact max_comm ..
  | cons subterm subterms ih => rw [deepest_cons, deepest_cons, ih, max_left_comm]

/-- Below a node, the subterms are its arguments. -/
theorem deepest_arguments (arguments : List ClosedType) (subterms : List (ClosedType × ℕ))
    (current depth : ℕ) :
    deepest (arguments.map (·, current) ++ subterms) (max depth current)
      = max (current + (arguments.map ClosedType.depth).foldr max 0) (deepest subterms depth) := by
  induction arguments with
  | nil => exact deepest_max ..
  | cons argument arguments ih =>
    rw [map_cons, cons_append, deepest_cons, ih, map_cons, foldr_cons,
      ← max_assoc, Nat.add_max_add_left]

variable {current depth : ℕ} {pending : List (List UInt8 × ℕ)}

/-- No argument of a node is too deep exactly when the deepest is not. -/
theorem arguments_within {arguments : List ClosedType} {limit : ℕ} :
    (current ≤ limit ∧ ∀ subterm ∈ arguments.map (·, current), subterm.2 + subterm.1.depth ≤ limit)
      ↔ current + (arguments.map ClosedType.depth).foldr max 0 ≤ limit := by
  induction arguments with
  | nil => simp
  | cons argument arguments ih =>
    rw [map_cons, forall_mem_cons, map_cons, foldr_cons, ← Nat.add_max_add_left,
      Nat.max_le, ← ih, and_left_comm]

theorem header_key {c : TypeConstructor} {arguments : Fin c.count.toNat → ClosedType}
    (harrays : (ClosedType.node c arguments).ArraysWithin maxArrayLength)
    (hlength : (ClosedType.node c arguments).key.length < 2 ^ 32) :
    header (ClosedType.node c arguments).key .type
      = .ok ⟨(Constructor.type c).kind, (Constructor.type c).declaration,
          List.ofFn fun i => (arguments i).key, c.application⟩ := by
  rw [header_eq_ok]
  exact ⟨.type c, _, rfl, harrays.1, length_ofFn .., argument_keys hlength, rfl, rfl⟩

/-- One round of the loop that ends well. -/
theorem traverse_cons {bytes : List UInt8} {parentDepth : ℕ} :
    traverse ((bytes, parentDepth) :: pending) depth = .ok reached ↔ ∃ node,
      header bytes .type = .ok node
        ∧ parentDepth + (if node.application then 1 else 0) ≤ maxDepth
        ∧ traverse (node.children.map (·, parentDepth + if node.application then 1 else 0)
            ++ pending) (max depth (parentDepth + if node.application then 1 else 0))
          = .ok reached := by
  rw [traverse]
  split
  · next failure h => simp [h]
  · next node h => simp [h, ite_error_eq_ok]

/-- Over the keys of closed types, the loop ends with the greatest depth when no subterm is too
deep. -/
theorem traverse_keys {subterms : List (ClosedType × ℕ)}
    (hsub : ∀ subterm ∈ subterms, subterm.1.ArraysWithin maxArrayLength
      ∧ subterm.1.key.length < 2 ^ 32) :
    traverse (subterms.map entry) depth = .ok reached
      ↔ (∀ subterm ∈ subterms, subterm.2 + subterm.1.depth ≤ maxDepth)
        ∧ deepest subterms depth = reached := by
  induction hsize : (subterms.map fun subterm => subterm.1.key.length).sum
    using Nat.strong_induction_on generalizing subterms depth with
  | _ size ih =>
  cases subterms with
  | nil => simp [traverse]
  | cons subterm subterms =>
    obtain ⟨⟨c, arguments⟩, parentDepth⟩ := subterm
    obtain ⟨⟨harrays, hlength⟩, hrest⟩ := forall_mem_cons.mp hsub
    have hheader := header_key harrays hlength
    have hshorter := header_children_lt hheader
    set current := parentDepth + if c.application then 1 else 0 with hcurrent
    have hstack : (List.ofFn fun i => (arguments i).key).map (·, current) ++ subterms.map entry
        = ((List.ofFn arguments).map (·, current) ++ subterms).map entry := by
      simp only [map_append, map_ofFn]
      rfl
    have hdepth : parentDepth + (ClosedType.node c arguments).depth
        = current + ((List.ofFn arguments).map ClosedType.depth).foldr max 0 := by
      rw [ClosedType.depth, map_ofFn, hcurrent, Nat.add_assoc]
      rfl
    rw [map_cons, entry, traverse_cons]
    simp only [hheader, Except.ok.injEq, exists_eq_left', ← hcurrent, hstack]
    have hmem : ∀ subterm ∈ (List.ofFn arguments).map (·, current) ++ subterms,
        subterm.1.ArraysWithin maxArrayLength ∧ subterm.1.key.length < 2 ^ 32 := by
      refine forall_mem_append.mpr ⟨fun subterm h => ?_, hrest⟩
      obtain ⟨argument, hargument, rfl⟩ := mem_map.mp h
      obtain ⟨i, rfl⟩ := mem_ofFn.mp hargument
      exact ⟨harrays.2 i, (argument_keys hlength _ (mem_ofFn.mpr ⟨i, rfl⟩)).2⟩
    rw [ih _ ?_ hmem rfl, deepest_arguments, deepest_cons, hdepth, forall_mem_append,
      forall_mem_cons, hdepth, ← and_assoc, ← and_assoc, arguments_within]
    rw [← hsize, map_append, sum_append, map_cons, sum_cons, map_map]
    refine Nat.add_lt_add_right ?_ _
    rw [map_ofFn] at hshorter ⊢
    exact hshorter

/-- A node over closed types, one for each child. -/
theorem exists_arguments {n : ℕ} {subterms : List (ClosedType × ℕ)} (hcount : children.length = n)
    (hsub : subterms.map entry = children.map (·, current)) :
    ∃ arguments : Fin n → ClosedType, subterms = (List.ofFn arguments).map (·, current)
      ∧ children = List.ofFn fun i => (arguments i).key := by
  have hlength : subterms.length = n := by
    rw [← hcount, ← length_map entry, hsub, length_map]
  subst hlength
  have hcurrent : ∀ subterm ∈ subterms, subterm.2 = current := by
    intro subterm h
    have hin := hsub ▸ mem_map_of_mem (f := entry) h
    obtain ⟨child, -, hchild⟩ := mem_map.mp hin
    exact (congrArg Prod.snd hchild).symm
  refine ⟨fun i => (subterms.get i).1, ?_, ?_⟩
  · rw [map_ofFn]
    refine (ofFn_get subterms).symm.trans (congrArg _ (funext fun i => ?_))
    exact Prod.ext rfl (hcurrent _ (get_mem ..))
  · have hkeys := congrArg (List.map Prod.fst) hsub
    rw [map_map, map_map] at hkeys
    have hchildren : children.map (Prod.fst ∘ (·, current)) = children := map_id _
    rw [← hchildren, ← hkeys]
    conv_lhs => rw [← ofFn_get subterms, map_ofFn]
    rfl

/-- What the loop accepts are keys of closed types. -/
theorem exists_subterms (h : traverse pending depth = .ok reached) :
    ∃ subterms : List (ClosedType × ℕ), subterms.map entry = pending
      ∧ ∀ subterm ∈ subterms, subterm.1.ArraysWithin maxArrayLength := by
  induction hsize : (pending.map fun entry => entry.1.length).sum
    using Nat.strong_induction_on generalizing pending depth with
  | _ size ih =>
  cases pending with
  | nil => exact ⟨[], rfl, forall_mem_nil _⟩
  | cons top pending =>
    obtain ⟨bytes, parentDepth⟩ := top
    rw [traverse_cons] at h
    obtain ⟨node, hheader, -, hrun⟩ := h
    have hshorter := header_children_lt hheader
    obtain ⟨subterms, hmap, hsub⟩ := ih _ (by
      rw [← hsize, map_append, sum_append, map_map, map_cons, sum_cons]
      exact Nat.add_lt_add_right hshorter _) hrun rfl
    obtain ⟨above, below, rfl, habove, hbelow⟩ := map_eq_append_iff.mp hmap
    rw [header_eq_ok] at hheader
    obtain ⟨c, children, hdomain, hlength, hcount, -, rfl, rfl⟩ := hheader
    obtain ⟨hsubAbove, hsubBelow⟩ := forall_mem_append.mp hsub
    cases c with
    | type c =>
      obtain ⟨arguments, rfl, rfl⟩ := exists_arguments hcount habove
      refine ⟨(.node c arguments, parentDepth) :: below, ?_, ?_⟩
      · rw [map_cons, hbelow]
        rfl
      · refine forall_mem_cons.mpr ⟨⟨hlength, fun i => ?_⟩, hsubBelow⟩
        exact hsubAbove (arguments i, _) (mem_map_of_mem (mem_ofFn.mpr ⟨i, rfl⟩))
    | functionInstance _ _ => cases hdomain
    | sourceRoot _ => cases hdomain

/-- What is returned for the key of a term. -/
def decoded (term : ClosedTerm) : DecodedKey :=
  ⟨term.constructor.kind, term.constructor.declaration, term.children, term.depth⟩

variable {term : ClosedTerm}

/-- Over the arguments of a root, the loop ends with the depth of the term. -/
theorem traverse_root
    (harrays : term.ArraysWithin maxArrayLength) (hlength : term.key.length < 2 ^ 32) :
    traverse (term.children.map (·, if term.constructor.application then 1 else 0))
        (if term.constructor.application then 1 else 0) = .ok reached
      ↔ term.depth ≤ maxDepth ∧ term.depth = reached := by
  set level := if term.constructor.application then 1 else 0 with hlevel
  have hsmall : level ≤ maxDepth := by
    rw [hlevel]
    split <;> decide
  have hstack : term.children.map (·, level)
      = ((List.ofFn term.arguments).map (·, level) ++ []).map entry := by
    simp only [ClosedTerm.children, append_nil, map_ofFn]
    rfl
  have hdepth : term.depth
      = level + ((List.ofFn term.arguments).map ClosedType.depth).foldr max 0 := by
    rw [ClosedTerm.depth, map_ofFn]
    rfl
  have hmem : ∀ subterm ∈ (List.ofFn term.arguments).map (·, level) ++ [],
      subterm.1.ArraysWithin maxArrayLength ∧ subterm.1.key.length < 2 ^ 32 := by
    rw [append_nil]
    intro subterm h
    obtain ⟨argument, hargument, rfl⟩ := mem_map.mp h
    obtain ⟨i, rfl⟩ := mem_ofFn.mp hargument
    exact ⟨harrays.2 i, (argument_keys hlength _ (mem_ofFn.mpr ⟨i, rfl⟩)).2⟩
  have hdeepest := deepest_arguments (List.ofFn term.arguments) [] level 0
  rw [Nat.zero_max, deepest_nil, Nat.max_zero] at hdeepest
  rw [hstack, traverse_keys hmem, hdeepest, ← hdepth, hdepth, ← arguments_within,
    and_iff_right hsmall, append_nil]

/-- Exactly the keys of closed terms within the limits are accepted, each in its own domain. -/
theorem decode_eq_ok_iff {bytes : List UInt8} {key : DecodedKey} :
    decode bytes domain = .ok key ↔ ∃ term : ClosedTerm, term.constructor.domain = domain
      ∧ term.key = bytes ∧ bytes.length ≤ maxKeyBytes ∧ term.depth ≤ maxDepth
      ∧ term.ArraysWithin maxArrayLength ∧ decoded term = key := by
  simp only [decode, ite_error_eq_ok, bind_eq_ok, not_lt, Except.ok.injEq]
  constructor
  · rintro ⟨hlength, root, hheader, reached, hrun, rfl⟩
    rw [header_eq_ok] at hheader
    obtain ⟨c, children, rfl, harray, hcount, -, rfl, rfl⟩ := hheader
    obtain ⟨subterms, hmap, hsub⟩ := exists_subterms hrun
    obtain ⟨arguments, rfl, rfl⟩ := exists_arguments hcount hmap
    have harrays : (ClosedTerm.mk c arguments).ArraysWithin maxArrayLength :=
      ⟨harray, fun i => hsub (arguments i, _)
        (mem_map_of_mem (mem_ofFn.mpr ⟨i, rfl⟩))⟩
    obtain ⟨hdepth, rfl⟩ := (traverse_root harrays (lt_of_le_of_lt hlength (by decide))).mp hrun
    exact ⟨⟨c, arguments⟩, rfl, rfl, hlength, hdepth, harrays, rfl⟩
  · rintro ⟨term, rfl, rfl, hlength, hdepth, harrays, rfl⟩
    have hbound : term.key.length < 2 ^ 32 := lt_of_le_of_lt hlength (by decide)
    refine ⟨hlength, ⟨term.constructor.kind, term.constructor.declaration, term.children,
      term.constructor.application⟩, ?_, term.depth, ?_, rfl⟩
    · rw [header_eq_ok]
      exact ⟨_, _, rfl, harrays.1, length_ofFn .., argument_keys hbound, rfl, rfl⟩
    · exact (traverse_root harrays hbound).mpr ⟨hdepth, rfl⟩

section

variable (tag : UInt8) (lanes : List UInt32) (children : List (List UInt8))

/-- The encoder of substituted source types. A key that is not symbolic is decoded again. -/
def encodeMode (symbolic : Bool) : Except Failure (List UInt8) := do
  let length := (children.map fun child => 4 + child.length).sum + (1 + 4 * lanes.length)
  if length > maxKeyBytes then .error (budget "substituted complete type key exceeds 4096 bytes")
  else
    let key := encodeKey tag lanes children
    if symbolic then .ok key
    else
      let _ ← decode key .type
      .ok key

/-- The size that is checked is that of the key. -/
theorem encodeMode_length :
    (children.map fun child => 4 + child.length).sum + (1 + 4 * lanes.length)
      = (encodeKey tag lanes children).length := by
  have hchildren : (children.map fun child => 4 + child.length).sum
      = (children.flatMap framed).length := by
    rw [length_flatMap_framed]
    induction children with
    | nil => rfl
    | cons child children ih =>
      rw [map_cons, sum_cons, ih, map_cons, sum_cons, length_cons]
      omega
  have hlanes : 4 * lanes.length = (lanes.flatMap laneBytes).length := by
    induction lanes with
    | nil => rfl
    | cons lane lanes ih =>
      rw [flatMap_cons, length_append, length_laneBytes, ← ih, length_cons]
      omega
  rw [hchildren, hlanes, encodeKey, length_cons, length_append]
  omega

end

/-- Exactly the closed types within the limits are encoded. -/
theorem encodeMode_eq_ok_iff {key : List UInt8} (hdomain : term.constructor.domain = .type) :
    encodeMode term.constructor.tag term.constructor.lanes term.children false = .ok key
      ↔ term.key = key ∧ key.length ≤ maxKeyBytes ∧ term.depth ≤ maxDepth
        ∧ term.ArraysWithin maxArrayLength := by
  simp only [encodeMode, ite_error_eq_ok, Bool.false_eq_true, if_false,
    bind_eq_ok, Except.ok.injEq, not_lt]
  rw [encodeMode_length term.constructor.tag]
  change term.key.length ≤ maxKeyBytes ∧ (∃ found, decode term.key .type = .ok found
    ∧ term.key = key) ↔ _
  constructor
  · rintro ⟨hlength, found, hdecode, rfl⟩
    rw [decode_eq_ok_iff] at hdecode
    obtain ⟨term', -, hkey, -, hdepth, harrays, -⟩ := hdecode
    obtain rfl := ClosedTerm.key_injective (lt_of_le_of_lt (hkey ▸ hlength) (by decide)) hkey
    exact ⟨rfl, hlength, hdepth, harrays⟩
  · rintro ⟨rfl, hlength, hdepth, harrays⟩
    exact ⟨hlength, decoded term,
      decode_eq_ok_iff.mpr ⟨term, hdomain, rfl, hlength, hdepth, harrays, rfl⟩, rfl⟩

end Keys

end Zryna.Ir.Generic
