import Mathlib.Data.List.OfFn
import Zryna.Foundation.Framing
import Zryna.Foundation.LittleEndian

/-!
# Closed terms and their keys

What the keys of closed instances stand for, apart from the code that reads and writes them. A
closed type is a tree of type constructors, and a closed term is such a type, a function applied to
closed types, or a source function without type arguments.

The key of a term is its tag, the lanes of its constructor, and the keys of its arguments, each
after its length. Within the range of a length lane the key determines the term
(`ClosedTerm.key_injective`).
-/

namespace Zryna.Ir.Generic

open List

/-- A declaration of the source, by its module and its index in the module. -/
abbrev Declaration := UInt32 × UInt32

/-- The number of arguments of a generic declaration. -/
inductive Arity where
  | one
  | two
deriving DecidableEq

def Arity.lane : Arity → UInt32
  | .one => 1
  | .two => 2

/-- The three namespaces of keys. -/
inductive Domain where
  | type
  | functionInstance
  | sourceRoot
deriving DecidableEq

inductive TypeConstructor where
  | bool
  | i32
  | string
  | struct (declaration : Declaration)
  | enum (declaration : Declaration)
  | genericStruct (declaration : Declaration) (arity : Arity)
  | genericEnum (declaration : Declaration) (arity : Arity)
  | option
  | result
  | fixedArray (length : UInt32)
  | vec
  | shared
  | weak
deriving DecidableEq

/-- The constructors of closed terms of any domain. -/
inductive Constructor where
  | type (constructor : TypeConstructor)
  | functionInstance (declaration : Declaration) (arity : Arity)
  | sourceRoot (declaration : Declaration)
deriving DecidableEq

namespace TypeConstructor

def tag : TypeConstructor → UInt8
  | .bool => 0
  | .i32 => 1
  | .string => 2
  | .struct _ => 0x10
  | .enum _ => 0x11
  | .genericStruct _ _ => 0x12
  | .genericEnum _ _ => 0x13
  | .option => 0x14
  | .result => 0x15
  | .fixedArray _ => 0x20
  | .vec => 0x21
  | .shared => 0x22
  | .weak => 0x23

def lanes : TypeConstructor → List UInt32
  | .struct declaration | .enum declaration => [declaration.1, declaration.2]
  | .genericStruct declaration arity | .genericEnum declaration arity =>
    [declaration.1, declaration.2, arity.lane]
  | .option => [1]
  | .result => [2]
  | .fixedArray length => [length]
  | .bool | .i32 | .string | .vec | .shared | .weak => []

/-- The number of type arguments. -/
def count : TypeConstructor → UInt32
  | .genericStruct _ arity | .genericEnum _ arity => arity.lane
  | .option | .fixedArray _ | .vec | .shared | .weak => 1
  | .result => 2
  | .bool | .i32 | .string | .struct _ | .enum _ => 0

/-- A type with arguments is an application. -/
def application (constructor : TypeConstructor) : Bool := constructor.count ≠ 0

end TypeConstructor

namespace Constructor

def tag : Constructor → UInt8
  | .type constructor => constructor.tag
  | .functionInstance _ _ => 0x40
  | .sourceRoot _ => 0x41

def lanes : Constructor → List UInt32
  | .type constructor => constructor.lanes
  | .functionInstance declaration arity => [declaration.1, declaration.2, arity.lane]
  | .sourceRoot declaration => [declaration.1, declaration.2]

def count : Constructor → UInt32
  | .type constructor => constructor.count
  | .functionInstance _ arity => arity.lane
  | .sourceRoot _ => 0

/-- Function roots add no level of application. -/
def application : Constructor → Bool
  | .type constructor => constructor.application
  | .functionInstance _ _ | .sourceRoot _ => false

def domain : Constructor → Domain
  | .type _ => .type
  | .functionInstance _ _ => .functionInstance
  | .sourceRoot _ => .sourceRoot

def arrayLength : Constructor → UInt32
  | .type (.fixedArray length) => length
  | _ => 0

end Constructor

inductive ClosedType where
  | node (constructor : TypeConstructor) (arguments : Fin constructor.count.toNat → ClosedType)

/-- A closed term: a constructor with as many closed types as it takes. -/
structure ClosedTerm where
  constructor : Constructor
  arguments : Fin constructor.count.toNat → ClosedType

def ClosedType.term : ClosedType → ClosedTerm
  | .node constructor arguments => ⟨.type constructor, arguments⟩

/-! ### Keys -/

/-- Bytes after their length. -/
def framed (bytes : List UInt8) : List UInt8 := laneBytes (UInt32.ofNat bytes.length) ++ bytes

/-- A key: a tag, lanes, and the keys of the arguments, each after its length. -/
def encodeKey (tag : UInt8) (lanes : List UInt32) (children : List (List UInt8)) : List UInt8 :=
  tag :: (lanes.flatMap laneBytes ++ children.flatMap framed)

def ClosedType.key : ClosedType → List UInt8
  | .node constructor arguments =>
    encodeKey constructor.tag constructor.lanes (List.ofFn fun i => (arguments i).key)

/-- The greatest number of applications on a path from the root. -/
def ClosedType.depth : ClosedType → ℕ
  | .node constructor arguments =>
    (if constructor.application then 1 else 0)
      + (List.ofFn fun i => (arguments i).depth).foldr max 0

/-- Every array of a closed type is at most as long as `limit`. -/
def ClosedType.ArraysWithin (limit : ℕ) : ClosedType → Prop
  | .node constructor arguments =>
    (Constructor.type constructor).arrayLength.toNat ≤ limit
      ∧ ∀ i, (arguments i).ArraysWithin limit

namespace ClosedTerm

def ofArguments (constructor : Constructor) (arguments : List ClosedType)
    (h : arguments.length = constructor.count.toNat) : ClosedTerm :=
  ⟨constructor, fun i => arguments.get (i.cast h.symm)⟩

def argumentList (term : ClosedTerm) : List ClosedType := List.ofFn term.arguments

def children (term : ClosedTerm) : List (List UInt8) := List.ofFn fun i => (term.arguments i).key

theorem children_eq (term : ClosedTerm) : term.children = term.argumentList.map ClosedType.key := by
  rw [children, argumentList, map_ofFn]
  rfl

@[simp] theorem argumentList_ofArguments (c : Constructor) (arguments : List ClosedType)
    (h : arguments.length = c.count.toNat) :
    (ofArguments c arguments h).argumentList = arguments := by
  refine ext_getElem (by simpa [argumentList, ofArguments] using h.symm) fun i _ _ => ?_
  simp [ofArguments, argumentList]

def key (term : ClosedTerm) : List UInt8 :=
  encodeKey term.constructor.tag term.constructor.lanes term.children

def depth (term : ClosedTerm) : ℕ :=
  (if term.constructor.application then 1 else 0)
    + (List.ofFn fun i => (term.arguments i).depth).foldr max 0

def ArraysWithin (limit : ℕ) (term : ClosedTerm) : Prop :=
  term.constructor.arrayLength.toNat ≤ limit ∧ ∀ i, (term.arguments i).ArraysWithin limit

end ClosedTerm

namespace ClosedType

def constructor : ClosedType → TypeConstructor
  | .node constructor _ => constructor

def arguments : ClosedType → List ClosedType
  | .node _ arguments => List.ofFn arguments

def ofArguments (constructor : TypeConstructor) (arguments : List ClosedType)
    (h : arguments.length = constructor.count.toNat) : ClosedType :=
  .node constructor fun i => arguments.get (i.cast h.symm)

variable (type : ClosedType)

@[simp] theorem length_arguments : type.arguments.length = type.constructor.count.toNat := by
  cases type
  exact length_ofFn ..

section

variable (c : TypeConstructor) (arguments : List ClosedType) (h : arguments.length = c.count.toNat)

include h

@[simp] theorem constructor_ofArguments : (ofArguments c arguments h).constructor = c := rfl

@[simp] theorem arguments_ofArguments : (ofArguments c arguments h).arguments = arguments := by
  refine ext_getElem (by simpa using h.symm) fun i _ _ => ?_
  simp [ofArguments, ClosedType.arguments]

end

/-- A closed type is its constructor over its arguments. -/
theorem ofArguments_arguments :
    ofArguments type.constructor type.arguments type.length_arguments = type := by
  cases type
  simp only [ofArguments, ClosedType.arguments, ClosedType.constructor, get_ofFn]
  rfl

theorem ext_arguments {t t' : ClosedType} (hconstructor : t.constructor = t'.constructor)
    (harguments : t.arguments = t'.arguments) : t = t' := by
  rw [← ofArguments_arguments t, ← ofArguments_arguments t']
  congr 1

theorem key_eq : type.key
    = encodeKey type.constructor.tag type.constructor.lanes (type.arguments.map key) := by
  cases type
  rw [key, arguments, map_ofFn]
  rfl

theorem depth_eq : type.depth
    = (if type.constructor.application then 1 else 0) + (type.arguments.map depth).foldr max 0 := by
  cases type
  rw [depth, arguments, map_ofFn]
  rfl

variable {limit : ℕ}

theorem arraysWithin_iff : type.ArraysWithin limit
    ↔ (Constructor.type type.constructor).arrayLength.toNat ≤ limit
      ∧ ∀ argument ∈ type.arguments, argument.ArraysWithin limit := by
  cases type
  simp [ArraysWithin, arguments, constructor, mem_ofFn]

@[simp] theorem key_term : type.term.key = type.key := by
  cases type
  rfl

@[simp] theorem depth_term : type.term.depth = type.depth := by
  cases type
  rfl

theorem key_ne_nil : type.key ≠ [] := by
  cases type
  exact cons_ne_nil _ _

theorem arraysWithin_term : type.term.ArraysWithin limit ↔ type.ArraysWithin limit := by
  cases type
  rfl

end ClosedType

/-! ### The key determines the term -/

theorem Arity.lane_injective : Function.Injective Arity.lane := by
  intro a b h
  cases a <;> cases b <;> first | rfl | exact absurd h (by decide)

variable {rest rest' : List UInt8} {c c' : Constructor} {lanes : List UInt32} {tag : UInt8}

/-- The tag and the lanes determine a type constructor. -/
theorem TypeConstructor.eq_of_tag {c c' : TypeConstructor} (htag : c.tag = c'.tag)
    (hlanes : c.lanes.flatMap laneBytes ++ rest = c'.lanes.flatMap laneBytes ++ rest') :
    c = c' ∧ rest = rest' := by
  cases c <;> cases c' <;> first
    | exact ⟨rfl, hlanes⟩
    | (simp [tag] at htag; done)
    | simpa [lanes, laneBytes_append_inj, Prod.ext_iff, and_assoc, Arity.lane_injective.eq_iff]
        using hlanes

theorem TypeConstructor.tag_lt (c : TypeConstructor) : c.tag < 0x40 := by
  cases c <;> simp [tag]

theorem TypeConstructor.tag_ne_instance (c : TypeConstructor) : c.tag ≠ 0x40 :=
  fun h => absurd (h ▸ c.tag_lt) (by decide)

theorem TypeConstructor.tag_ne_root (c : TypeConstructor) : c.tag ≠ 0x41 :=
  fun h => absurd (h ▸ c.tag_lt) (by decide)

/-- The tag and the lanes determine the constructor. -/
theorem Constructor.eq_of_tag (htag : c.tag = c'.tag)
    (hlanes : c.lanes.flatMap laneBytes ++ rest = c'.lanes.flatMap laneBytes ++ rest') :
    c = c' ∧ rest = rest' := by
  cases c with
  | type c =>
    cases c' with
    | type c' => exact (TypeConstructor.eq_of_tag htag hlanes).imp_left (congrArg _)
    | functionInstance _ _ => exact absurd htag c.tag_ne_instance
    | sourceRoot _ => exact absurd htag c.tag_ne_root
  | functionInstance d a =>
    cases c' with
    | type c' => exact absurd htag.symm c'.tag_ne_instance
    | functionInstance d' a' =>
      simpa [lanes, laneBytes_append_inj, Prod.ext_iff, and_assoc, Arity.lane_injective.eq_iff]
        using hlanes
    | sourceRoot _ => simp [tag] at htag
  | sourceRoot d =>
    cases c' with
    | type c' => exact absurd htag.symm c'.tag_ne_root
    | functionInstance _ _ => simp [tag] at htag
    | sourceRoot d' =>
      simpa [lanes, laneBytes_append_inj, Prod.ext_iff, and_assoc] using hlanes

@[simp] theorem length_framed (bytes : List UInt8) : (framed bytes).length = 4 + bytes.length := by
  rw [framed, length_append, length_laneBytes]

theorem length_flatMap_framed (children : List (List UInt8)) :
    (children.flatMap framed).length = 4 * children.length + (children.map List.length).sum := by
  induction children with
  | nil => rfl
  | cons child children ih =>
    rw [flatMap_cons, length_append, ih, length_framed, length_cons, map_cons,
      sum_cons]
    omega

/-- Bytes within the range of their length are told from what follows them. -/
theorem framed_splits : Framing.Splits (fun bytes => bytes.length < 2 ^ 32) framed := by
  intro a b r s ha hb h
  rw [framed, framed, append_assoc, append_assoc, laneBytes_append_inj] at h
  obtain ⟨hlane, hrest⟩ := h
  have hlength : a.length = b.length := by
    have htoNat := congrArg UInt32.toNat hlane
    rwa [UInt32.toNat_ofNat_of_lt' ha, UInt32.toNat_ofNat_of_lt' hb] at htoNat
  exact append_inj hrest hlength

/-- A part of a key is shorter than the key. -/
theorem length_lt_of_mem_encodeKey
    {children : List (List UInt8)} {child : List UInt8} (h : child ∈ children) :
    child.length < (encodeKey tag lanes children).length := by
  obtain ⟨before, after, rfl⟩ := append_of_mem h
  simp only [encodeKey, length_cons, length_append, flatMap_append,
    flatMap_cons, length_framed]
  omega

/-- The keys of the arguments are not empty and within the range of a length lane. -/
theorem argument_keys {n : ℕ} {arguments : Fin n → ClosedType}
    (hlength : (encodeKey tag lanes (List.ofFn fun i => (arguments i).key)).length < 2 ^ 32) :
    ∀ child ∈ List.ofFn fun i => (arguments i).key, child ≠ [] ∧ child.length < 2 ^ 32 := by
  intro child hchild
  obtain ⟨i, rfl⟩ := mem_ofFn.mp hchild
  exact ⟨(arguments i).key_ne_nil, lt_trans (length_lt_of_mem_encodeKey hchild) hlength⟩

/-- A key determines the constructor and the keys of the arguments. -/
theorem encodeKey_inj {xs ys : List (List UInt8)} (hxs : xs.length = c.count.toNat)
    (hys : ys.length = c'.count.toNat) (hlength : (encodeKey c.tag c.lanes xs).length < 2 ^ 32)
    (h : encodeKey c.tag c.lanes xs = encodeKey c'.tag c'.lanes ys) : c = c' ∧ xs = ys := by
  have hlength' := h ▸ hlength
  rw [encodeKey, encodeKey, List.cons.injEq] at h
  obtain ⟨rfl, hframed⟩ := Constructor.eq_of_tag h.1 h.2
  have hlists := framed_splits.list (r := []) (s := []) (hxs.trans hys.symm)
    (fun x hx => lt_trans (length_lt_of_mem_encodeKey hx) hlength)
    (fun y hy => lt_trans (length_lt_of_mem_encodeKey hy) hlength')
    (by rw [hframed])
  exact ⟨rfl, hlists.1⟩

/-- Within the range of a length lane, distinct closed types have distinct keys. -/
theorem ClosedType.key_injective {t t' : ClosedType} (hlength : t.key.length < 2 ^ 32)
    (h : t.key = t'.key) : t = t' := by
  induction t generalizing t' with
  | node c arguments ih =>
    obtain ⟨c', arguments'⟩ := t'
    obtain ⟨hc, hchildren⟩ := @encodeKey_inj (.type c) (.type c') _ _
      (length_ofFn ..) (length_ofFn ..) hlength h
    obtain rfl := Constructor.type.inj hc
    have hkeys := ofFn_injective hchildren
    congr 1
    funext i
    exact ih i (argument_keys hlength _ (mem_ofFn.mpr ⟨i, rfl⟩)).2 (congrFun hkeys i)

/-- Within the range of a length lane, distinct closed terms have distinct keys. -/
theorem ClosedTerm.key_injective {t t' : ClosedTerm} (hlength : t.key.length < 2 ^ 32)
    (h : t.key = t'.key) : t = t' := by
  obtain ⟨c, arguments⟩ := t
  obtain ⟨c', arguments'⟩ := t'
  obtain ⟨rfl, hchildren⟩ := encodeKey_inj (length_ofFn ..) (length_ofFn ..) hlength h
  have hkeys := ofFn_injective hchildren
  congr 1
  funext i
  exact ClosedType.key_injective (argument_keys hlength _ (mem_ofFn.mpr ⟨i, rfl⟩)).2
    (congrFun hkeys i)

end Zryna.Ir.Generic
