import Mathlib.Data.Fintype.Card
import Mathlib.Data.List.Perm.Subperm
import Mathlib.Data.String.Basic
import Mathlib.Logic.Function.Basic
import Zryna.Foundation.Checked
import Zryna.Foundation.OrderedMap
import Zryna.Source

/-!
# Comparing type graphs

`type_graph.rs` compares the interfaces of a decoded world with those of the authenticated one. The
walk takes a visited pair for equal before it has been compared, and it relates resources as it
goes. Both are harmless: within its envelope and its profile of items it accepts exactly the worlds
whose unfoldings agree to every depth under one bijection of resources (`compare_exact`).

Every step of the walk has a claim about two relations, one of resources and one of types
(`Checks`). A pair that is visited is closed for all later graphs, so that the last graph is a
bisimulation, and a step whose claim the given relations meet does not fail.
-/

namespace Zryna.Backend.WebAssembly.TypeGraph

open Function (update)

/-! ### Resolved worlds -/

inductive Primitive where
  | bool | u8 | u16 | u32 | u64 | s8 | s16 | s32 | s64 | f32 | f64 | char | string | errorContext
deriving DecidableEq

/-- `wit_parser::Type`, over the identifiers of an arena. -/
inductive Ty (T : Type) where
  | primitive (p : Primitive)
  | id (id : T)
deriving DecidableEq

/-- `unreviewed` stands for the kinds that the comparison does not know. -/
inductive TypeDefKind (T : Type) where
  | resource
  | own (resource : T)
  | borrow (resource : T)
  | record (fields : List (String × Ty T))
  | variant (cases : List (String × Option (Ty T)))
  | flags (flags : List String)
  | enum (cases : List String)
  | tuple (types : List (Ty T))
  | option (ty : Ty T)
  | list (ty : Ty T)
  | result (ok err : Option (Ty T))
  | type (ty : Ty T)
  | unreviewed

structure TypeDef (T I : Type) where
  name : Option String
  kind : TypeDefKind T
  /-- The interface that owns the type, if one does. -/
  owner : Option I

inductive FunctionKind (T : Type) where
  | freestanding
  | method (resource : T)
  | static (resource : T)
  | constructor (resource : T)
  | asynchronous

structure Function (T : Type) where
  name : String
  kind : FunctionKind T
  params : List (String × Ty T)
  result : Option (Ty T)

/-- Names map to one type and to one function, in their order of insertion. -/
structure Interface (T : Type) where
  types : List (String × T)
  functions : List (String × Function T)
  types_nodup : (types.map Prod.fst).Nodup
  functions_nodup : (functions.map Prod.fst).Nodup

inductive WorldKey (I : Type) where
  | interface (id : I)
  | name (name : String)

inductive WorldItem (I : Type) where
  | interface (id : I)
  | other

structure World (I : Type) where
  imports : List (WorldKey I × WorldItem I)
  exports : List (WorldKey I × WorldItem I)

/-- Two arenas, and the identity of an interface as the library computes it. -/
structure Resolve (T I : Type) where
  types : T → TypeDef T I
  interfaces : I → Interface T
  idOf : I → Option String

/-! ### The comparison -/

def maxTypes : ℕ := 4096
def maxEdges : ℕ := 16384
def maxDepth : ℕ := 32

def invalid (message : String) : Diagnostic :=
  .error "ZRYNA-W4012" none message
    "rebuild the command from its authenticated WIT, verified source and private bridge"

structure Graph (T T' : Type) where
  visited : List (T × T')
  resources : T → Option T'
  reverseResources : T' → Option T
  edges : ℕ

def Graph.empty {T T' : Type} : Graph T T' := ⟨[], fun _ => none, fun _ => none, 0⟩

/-- A step of the comparison. -/
abbrev Walk (T T' : Type) := Graph T T' → Except Diagnostic (Graph T T')

section Comparison

variable {T I T' I' α β : Type}

def refuse (message : String) : Walk T T' := fun _ => .error (invalid message)

/-- The end of a chain of aliases, for at most `rounds` rounds. -/
def canonical (resolve : Resolve T I) : ℕ → Ty T → Except Diagnostic (Ty T)
  | 0, _ => .error (invalid "command type alias chain exceeds its envelope")
  | _ + 1, .primitive p => .ok (.primitive p)
  | rounds + 1, .id id =>
    match (resolve.types id).kind with
    | .type next => canonical resolve rounds next
    | _ => .ok (.id id)

def resourceName (resolve : Resolve T I) (id : T) : Except Diagnostic (String × String) :=
  match (resolve.types id).owner with
  | none => .error (invalid "command resource has no canonical interface owner")
  | some interface =>
    match resolve.idOf interface, (resolve.types id).name with
    | none, _ => .error (invalid "command resource owner is unnamed")
    | some _, none => .error (invalid "command resource is unnamed")
    | some interface, some name => .ok (interface, name)

def optional (ty : Ty T → Ty T' → Walk T T') : Option (Ty T) → Option (Ty T') → Walk T T'
  | none, none => .ok
  | some a, some b => ty a b
  | _, _ => refuse "command optional type differs"

/-- The steps of two lists of one length. -/
def zip (step : α → β → Walk T T') (xs : List α) (ys : List β) : Walk T T' :=
  (xs.zip ys).foldlM fun graph (x, y) => step x y graph

/-- A step behind the comparison of two names. -/
def named (message : String) (step : α → β → Walk T T') (x : String × α)
    (y : String × β) : Walk T T' :=
  if x.1 = y.1 then step x.2 y.2 else refuse message

variable [DecidableEq T] [DecidableEq T'] (expected : Resolve T I) (actual : Resolve T' I')

def resource (left : T) (right : T') : Walk T T' := fun graph => do
  let name ← resourceName expected left
  let name' ← resourceName actual right
  if name ≠ name' ∨ (graph.resources left).any (· ≠ right)
      ∨ (graph.reverseResources right).any (· ≠ left) then
    .error (invalid "command resource identity or alias equivalence differs")
  else .ok { graph with
    resources := update graph.resources left (some right)
    reverseResources := update graph.reverseResources right (some left) }

/-- `ty` compares at the depth of the definition, `below` one deeper. -/
def definition (ty below : Ty T → Ty T' → Walk T T') (left : T) (right : T') : Walk T T' :=
  let differs := refuse "command defined type differs or is outside the reviewed profile"
  match (expected.types left).kind, (actual.types right).kind with
  | .resource, .resource => resource expected actual left right
  | .own a, .own b | .borrow a, .borrow b => ty (.id a) (.id b)
  | .record a, .record b =>
    if a.length = b.length then zip (named "command record field differs" ty) a b else differs
  | .variant a, .variant b =>
    if a.length = b.length then zip (named "command variant case differs" (optional below)) a b
    else differs
  | .flags a, .flags b | .enum a, .enum b => if a = b then .ok else differs
  | .tuple a, .tuple b => if a.length = b.length then zip ty a b else differs
  | .option a, .option b | .list a, .list b => ty a b
  | .result ok err, .result ok' err' => fun graph => do
    optional below err err' (← optional below ok ok' graph)
  | _, _ => differs

/-- Both ends of the aliases, which are compared by `rest` where they are definitions. -/
def visit (rest : T → T' → Walk T T') (left : Ty T) (right : Ty T') : Walk T T' := fun graph =>
  if maxEdges < graph.edges + 1 then
    .error (invalid "command type traversal exceeds its envelope")
  else do
    let graph := { graph with edges := graph.edges + 1 }
    match ← canonical expected (maxDepth + 1) left, ← canonical actual (maxDepth + 1) right with
    | .id a, .id b =>
      if (a, b) ∈ graph.visited then .ok graph
      else rest a b { graph with visited := (a, b) :: graph.visited }
    | .primitive p, .primitive q =>
      if p = q ∧ p ≠ .errorContext then .ok graph
      else .error (invalid "command value type differs")
    | _, _ => .error (invalid "command value type differs")

/-- The first argument counts the levels that remain: `MAX_DEPTH + 1` less the depth. -/
def ty : ℕ → Ty T → Ty T' → Walk T T'
  | 0 => fun _ _ => refuse "command type traversal exceeds its envelope"
  | 1 => visit expected actual fun _ _ =>
    refuse "command type definition depth exceeds its envelope"
  | levels + 2 => visit expected actual
    (definition expected actual (ty (levels + 1)) (ty levels))

def functionKind : FunctionKind T → FunctionKind T' → Walk T T'
  | .freestanding, .freestanding => .ok
  | .method a, .method b | .static a, .static b | .constructor a, .constructor b =>
    ty expected actual (maxDepth + 1) (.id a) (.id b)
  | _, _ => refuse "command function kind differs or is asynchronous"

def function (left : Function T) (right : Function T') : Walk T T' :=
  if left.name = right.name ∧ left.params.length = right.params.length then fun graph => do
    let graph ← functionKind expected actual left.kind right.kind graph
    let graph ← zip (named "command function parameter name differs"
      (ty expected actual (maxDepth + 1))) left.params right.params graph
    optional (ty expected actual maxDepth) left.result right.result graph
  else refuse "command function name or arity differs"

/-- The entries of the left map with those of the right under their names. -/
def entries (message : String) (step : α → β → Walk T T') (left : List (String × α))
    (right : List (String × β)) : Walk T T' :=
  left.foldlM fun graph (name, a) =>
    match right.lookup name with
    | none => refuse message graph
    | some b => step a b graph

def interface (left : I) (right : I') : Walk T T' :=
  let left := expected.interfaces left
  let right := actual.interfaces right
  if left.types.length = right.types.length ∧ left.functions.length = right.functions.length then
    fun graph => do
    let graph ← entries "command type is missing"
      (fun a b => ty expected actual (maxDepth + 1) (.id a) (.id b)) left.types right.types graph
    entries "command function is missing" (function expected actual) left.functions right.functions
      graph
  else refuse "command interface type or function set differs"

/-- The interfaces of the items by their identities. -/
def keyMatches [DecidableEq I] (id : I) (identity : String) : WorldKey I → Bool
  | .interface keyId => keyId = id
  | .name name => name = identity

def interfacesRound [DecidableEq I] (resolve : Resolve T I) (result : OrderedMap String I) :
    WorldKey I × WorldItem I → Except Diagnostic (OrderedMap String I)
  | (_, .other) => .error (invalid "command world contains a non-interface item")
  | (key, .interface id) =>
    match resolve.idOf id with
    | none => .error (invalid "unnamed command interface")
    | some identity =>
      if !keyMatches id identity key || (result.get? identity).isSome then
        .error (invalid "command interface identity is ambiguous")
      else .ok (result.insert identity id)

variable [DecidableEq I] [DecidableEq I']

/-- The imports or the exports of both worlds. Where the identities agree, every lookup succeeds. -/
def items (left : List (WorldKey I × WorldItem I)) (right : List (WorldKey I' × WorldItem I')) :
    Walk T T' := fun graph => do
  let differ := "command interface names or versions differ from authenticated WIT"
  let left ← left.foldlM (interfacesRound expected) .empty
  let right ← right.foldlM (interfacesRound actual) .empty
  (if left.keys = right.keys then
    entries differ (interface expected actual) left.entries right.entries
  else refuse differ) graph

def compare [Fintype T'] [Fintype I'] (world : World I) (world' : World I') :
    Except Diagnostic Unit :=
  if maxTypes < Fintype.card T' ∨ 32 < Fintype.card I' then
    .error (invalid "decoded command type graph exceeds its envelope")
  else do
    let graph ← items expected actual world.imports world'.imports .empty
    (fun _ => ()) <$> items expected actual world.exports world'.exports graph

end Comparison

/-! ### Equal graphs -/

section Equality

variable {T I T' I' α β : Type}

/-- A type and the end of its aliases. -/
inductive Follows (resolve : Resolve T I) : Ty T → Ty T → Prop
  | primitive (p : Primitive) : Follows resolve (.primitive p) (.primitive p)
  | definition {id : T} (h : ∀ next, (resolve.types id).kind ≠ .type next) :
      Follows resolve (.id id) (.id id)
  | next {id : T} {next ty : Ty T} (h : (resolve.types id).kind = .type next)
      (hnext : Follows resolve next ty) : Follows resolve (.id id) ty

def Named (R : α → β → Prop) (x : String × α) (y : String × β) : Prop := x.1 = y.1 ∧ R x.2 y.2

/-- Two definitions of one form whose types are related. -/
def KindRel (resource : Prop) (R : Ty T → Ty T' → Prop) : TypeDefKind T → TypeDefKind T' → Prop
  | .resource, .resource => resource
  | .own a, .own b | .borrow a, .borrow b => R (.id a) (.id b)
  | .record a, .record b => List.Forall₂ (Named R) a b
  | .variant a, .variant b => List.Forall₂ (Named (Option.Rel R)) a b
  | .flags a, .flags b | .enum a, .enum b => a = b
  | .tuple a, .tuple b => List.Forall₂ R a b
  | .option a, .option b | .list a, .list b => R a b
  | .result ok err, .result ok' err' => Option.Rel R ok ok' ∧ Option.Rel R err err'
  | _, _ => False

def FunctionKindRel (R : Ty T → Ty T' → Prop) : FunctionKind T → FunctionKind T' → Prop
  | .freestanding, .freestanding => True
  | .method a, .method b | .static a, .static b | .constructor a, .constructor b =>
    R (.id a) (.id b)
  | _, _ => False

def FunctionRel (R : Ty T → Ty T' → Prop) (left : Function T) (right : Function T') : Prop :=
  left.name = right.name ∧ FunctionKindRel R left.kind right.kind
    ∧ List.Forall₂ (Named R) left.params right.params ∧ Option.Rel R left.result right.result

/-- The same names, with related entries. -/
def EntriesRel (R : α → β → Prop) (left : List (String × α)) (right : List (String × β)) : Prop :=
  (left.map Prod.fst).Perm (right.map Prod.fst)
    ∧ ∀ name a b, (name, a) ∈ left → (name, b) ∈ right → R a b

variable (r : Resolve T I) (r' : Resolve T' I')

def InterfaceRel (R : Ty T → Ty T' → Prop) (left : I) (right : I') : Prop :=
  EntriesRel (fun a b => R (.id a) (.id b)) (r.interfaces left).types
      (r'.interfaces right).types
    ∧ EntriesRel (FunctionRel R) (r.interfaces left).functions
      (r'.interfaces right).functions

/-- The interfaces among the items that have an identity. -/
def identified (resolve : Resolve T I) (items : List (WorldKey I × WorldItem I)) :
    List (String × I) :=
  items.filterMap fun (_, item) => match item with
    | .other => none
    | .interface id => (resolve.idOf id).map (·, id)

/-- An interface with an identity, under one of its keys. -/
def Reviewed [DecidableEq I] (resolve : Resolve T I) (item : WorldKey I × WorldItem I) : Prop :=
  ∃ id identity, item.2 = .interface id ∧ resolve.idOf id = some identity
    ∧ keyMatches id identity item.1

/-- Only reviewed items, and no identity twice. -/
def Profile [DecidableEq I] (resolve : Resolve T I) (items : List (WorldKey I × WorldItem I)) :
    Prop :=
  (∀ item ∈ items, Reviewed resolve item) ∧ ((identified resolve items).map Prod.fst).Nodup

/-- The primitives that two chains of aliases end in are equal, the definitions are related. -/
def Ends (P : T → T' → Prop) : Ty T → Ty T' → Prop
  | .primitive p, .primitive q => p = q ∧ p ≠ .errorContext
  | .id a, .id b => P a b
  | _, _ => False

def Reaches (P : T → T' → Prop) (a : Ty T) (b : Ty T') : Prop :=
  ∃ x y, Follows r a x ∧ Follows r' b y ∧ Ends P x y

variable (ρ : T → T' → Prop)

/-- A resource has one partner, of the same owner and name. -/
structure Bijection : Prop where
  left : ∀ a b b', ρ a b → ρ a b' → b = b'
  right : ∀ a a' b, ρ a b → ρ a' b → a = a'
  named : ∀ a b, ρ a b →
    ∃ name, resourceName r a = .ok name ∧ resourceName r' b = .ok name

/-- The unfoldings of both types agree to a depth. -/
def SameTo : ℕ → Ty T → Ty T' → Prop
  | 0 => fun _ _ => True
  | depth + 1 => Reaches r r' fun a b =>
    KindRel (ρ a b) (SameTo depth) (r.types a).kind (r'.types b).kind

variable [DecidableEq I] [DecidableEq I']

/-- Interfaces of the same identities, which are equal under one bijection of the resources: `R`
relates only types whose unfoldings agree to every depth. -/
def Agree (world : World I) (world' : World I') : Prop :=
  ∃ ρ R, Bijection r r' ρ ∧ (∀ depth, R ≤ SameTo r r' ρ depth)
    ∧ EntriesRel (InterfaceRel r r' R) (identified r world.imports)
      (identified r' world'.imports)
    ∧ EntriesRel (InterfaceRel r r' R) (identified r world.exports)
      (identified r' world'.exports)

/-- All items of both worlds are within the profile. -/
def InProfile (world : World I) (world' : World I') : Prop :=
  (Profile r world.imports ∧ Profile r' world'.imports) ∧
    Profile r world.exports ∧ Profile r' world'.exports

end Equality

/-! ### Relations -/

section Steps

variable {T I T' I' α β : Type} {r : Resolve T I} {r' : Resolve T' I'}
  {P P' ρ : T → T' → Prop} {R R' : Ty T → Ty T' → Prop}

theorem Named.imp {S S' : α → β → Prop} (h : ∀ a b, S a b → S' a b) (x : String × α)
    (y : String × β) : Named S x y → Named S' x y := And.imp_right (h _ _)

theorem optionRel_imp (h : R ≤ R') : ∀ a b, Option.Rel R a b → Option.Rel R' a b
  | _, _, .some hab => .some (h _ _ hab)
  | _, _, .none => .none

theorem KindRel.imp {p p' : Prop} (hp : p → p') (h : R ≤ R') {k : TypeDefKind T}
    {k' : TypeDefKind T'} (hk : KindRel p R k k') : KindRel p' R' k k' := by
  unfold KindRel at hk
  split at hk
  · exact hp hk
  · exact h _ _ hk
  · exact h _ _ hk
  · exact hk.imp (Named.imp h)
  · exact hk.imp (Named.imp (optionRel_imp h))
  · exact hk
  · exact hk
  · exact hk.imp h
  · exact h _ _ hk
  · exact h _ _ hk
  · exact hk.imp (optionRel_imp h _ _) (optionRel_imp h _ _)
  · exact hk.elim

theorem Reaches.imp (h : ∀ a b, P a b → P' a b) (a : Ty T) (b : Ty T') :
    Reaches r r' P a b → Reaches r r' P' a b := by
  rintro ⟨x, y, hx, hy, hxy⟩
  refine ⟨x, y, hx, hy, ?_⟩
  cases x <;> cases y
  · exact hxy
  · exact hxy
  · exact hxy
  · exact h _ _ hxy

/-- An unfolding that agrees further down agrees above. -/
theorem SameTo.le_succ : ∀ depth, SameTo r r' ρ (depth + 1) ≤ SameTo r r' ρ depth
  | 0 => fun _ _ _ => trivial
  | depth + 1 => Reaches.imp fun _ _ => KindRel.imp id (SameTo.le_succ depth)

theorem Follows.unique {resolve : Resolve T I} {ty x y : Ty T} (hx : Follows resolve ty x)
    (hy : Follows resolve ty y) : x = y := by
  induction hx with
  | primitive p => cases hy; rfl
  | definition h =>
    cases hy with
    | definition => rfl
    | next h' => exact absurd h' (h _)
  | next h _ ih =>
    cases hy with
    | definition h' => exact absurd h (h' _)
    | next h' hnext => exact ih (by rw [h] at h'; cases h'; exact hnext)

theorem reaches_iff {a x : Ty T} {b y : Ty T'} (hx : Follows r a x)
    (hy : Follows r' b y) : Reaches r r' P a b ↔ Ends P x y :=
  ⟨fun ⟨_, _, hx', hy', h⟩ => hx.unique hx' ▸ hy.unique hy' ▸ h, fun h => ⟨x, y, hx, hy, h⟩⟩

/-- The errors of a graph outside the envelope. -/
def Exceeds (d : Diagnostic) : Prop :=
  d ∈ ["command type traversal exceeds its envelope",
    "command type definition depth exceeds its envelope",
    "command type alias chain exceeds its envelope",
    "decoded command type graph exceeds its envelope"].map invalid

theorem canonical_ok {resolve : Resolve T I} {rounds : ℕ} {ty x : Ty T}
    (h : canonical resolve rounds ty = .ok x) : Follows resolve ty x := by
  fun_induction canonical with
  | case1 => cases h
  | case2 => cases h; exact .primitive _
  | case3 _ _ _ hk ih => exact .next hk (ih h)
  | case4 _ _ hk => cases h; exact .definition hk

theorem canonical_error {resolve : Resolve T I} {rounds : ℕ} {ty : Ty T} {d : Diagnostic}
    (h : canonical resolve rounds ty = .error d) : Exceeds d := by
  fun_induction canonical with
  | case1 => cases h; simp [Exceeds]
  | case2 => cases h
  | case3 _ _ _ _ ih => exact ih h
  | case4 => cases h

/-! ### What a step establishes -/

/-- The claim of a step, about any relation of the resources and any of the types. -/
abbrev Claim (T T' : Type) := (T → T' → Prop) → (Ty T → Ty T' → Prop) → Prop

def Graph.Extends (g g' : Graph T T') : Prop :=
  g.visited ⊆ g'.visited ∧ ∀ a b, g.resources a = some b → g'.resources a = some b

variable (r r')

def Graph.Related (g : Graph T T') : Ty T → Ty T' → Prop :=
  Reaches r r' fun a b => (a, b) ∈ g.visited

/-- The types of a visited pair are related, whatever is visited later. -/
def Graph.Closed (g : Graph T T') (a : T) (b : T') : Prop :=
  ∀ h, g.Extends h → KindRel (h.resources a = some b) (h.Related r r')
    (r.types a).kind (r'.types b).kind

def Graph.Inv (g : Graph T T') : Prop :=
  (∀ a b, g.resources a = some b ↔ g.reverseResources b = some a) ∧ ∀ a b, g.resources a = some b →
    ∃ name, resourceName r a = .ok name ∧ resourceName r' b = .ok name

variable (ρ R)

def Graph.Sane (g : Graph T T') : Prop :=
  Bijection r r' ρ ∧ ∀ a b, g.resources a = some b → ρ a b

/-- What the result of a step with the claim `Q` says. A graph that was reached meets the claim and
keeps meeting it, and where `ρ` and `R` meet it the step fails only outside the envelope. -/
def Established (Q : Claim T T') (g : Graph T T') :
    Except Diagnostic (Graph T T') → Prop
  | .ok g' => g'.Inv r r' ∧ g.Extends g'
    ∧ (∀ a b, (a, b) ∈ g'.visited → (a, b) ∈ g.visited ∨ g'.Closed r r' a b)
    ∧ (∀ h, g'.Extends h → Q (h.resources · = some ·) (h.Related r r'))
    ∧ (Q ρ R → g.Sane r r' ρ → g'.Sane r r' ρ)
  | .error d => Q ρ R → g.Sane r r' ρ → Exceeds d

def Checks (f : Walk T T') (Q : Claim T T') : Prop :=
  ∀ g, g.Inv r r' → Established r r' ρ R Q g (f g)

variable {r r' ρ R} {f f' : Walk T T'} {Q Q' : Claim T T'} {message : String}

theorem Graph.Extends.refl (g : Graph T T') : g.Extends g := ⟨fun _ => id, fun _ _ => id⟩

theorem Graph.Extends.trans {g g' h : Graph T T'} (hg : g.Extends g') (hg' : g'.Extends h) :
    g.Extends h := ⟨fun _ h => hg'.1 (hg.1 h), fun a b hab => hg'.2 a b (hg.2 a b hab)⟩

/-- Where every visited pair is closed, the memo has accepted no pair that an unfolding rejects. -/
theorem Graph.related_le {g : Graph T T'} (h : ∀ a b, (a, b) ∈ g.visited → g.Closed r r' a b) :
    ∀ depth, g.Related r r' ≤ SameTo r r' (g.resources · = some ·) depth
  | 0 => fun _ _ _ => trivial
  | depth + 1 => Reaches.imp fun a b hab =>
    KindRel.imp id (related_le h depth) (h a b hab g (.refl g))

theorem Graph.Inv.bijection {g : Graph T T'} (hg : g.Inv r r') :
    Bijection r r' (g.resources · = some ·) where
  left _ _ _ hb hb' := Option.some.inj (hb.symm.trans hb')
  right _ _ _ ha ha' := Option.some.inj (((hg.1 _ _).mp ha).symm.trans ((hg.1 _ _).mp ha'))
  named := hg.2

namespace Checks

theorem ok (hQ : ∀ ρ R, Q ρ R) : Checks r r' ρ R .ok Q := fun _ hg =>
  ⟨hg, .refl _, fun _ _ => .inl, fun _ _ => hQ _ _, fun _ => id⟩

theorem error (hQ : Q ρ R → Exceeds (invalid message)) : Checks r r' ρ R (refuse message) Q :=
  fun _ _ hq _ => hQ hq

theorem result {g : Graph T T'} {x : Except Diagnostic (Graph T T')} (hf : Checks r r' ρ R f Q)
    (hx : f g = x) (hg : g.Inv r r') : Established r r' ρ R Q g x := hx ▸ hf g hg

theorem bind (hf : Checks r r' ρ R f Q) (hf' : Checks r r' ρ R f' Q') :
    Checks r r' ρ R (fun g => f g >>= f') fun ρ R => Q ρ R ∧ Q' ρ R := by
  intro g hg
  show Established _ _ _ _ _ _ (f g >>= f')
  cases h : f g with
  | error d => exact fun hq => hf.result h hg hq.1
  | ok g' =>
    obtain ⟨hinv, hext, hclosed, hQ, hsane⟩ := hf.result h hg
    show Established _ _ _ _ _ _ (f' g')
    cases h' : f' g' with
    | error d => exact fun hq hs => hf'.result h' hinv hq.2 (hsane hq.1 hs)
    | ok g'' =>
      obtain ⟨hinv', hext', hclosed', hQ', hsane'⟩ := hf'.result h' hinv
      refine ⟨hinv', hext.trans hext', fun a b hab => ?_,
        fun h hh => ⟨hQ h (hext'.trans hh), hQ' h hh⟩, fun hq hs => hsane' hq.2 (hsane hq.1 hs)⟩
      obtain hab | hab := hclosed' a b hab
      · exact (hclosed a b hab).imp_right fun hab h hh => hab h (hext'.trans hh)
      · exact .inr hab

theorem iff (hf : Checks r r' ρ R f Q) (h : ∀ ρ R, Q ρ R ↔ Q' ρ R) :
    Checks r r' ρ R f Q' := by
  obtain rfl : Q = Q' := by
    ext ρ R
    exact h ρ R
  exact hf

theorem guard {c : Prop} [Decidable c] (hf : c → Checks r r' ρ R f Q) (hQ : ∀ ρ R, Q ρ R → c) :
    Checks r r' ρ R (if c then f else refuse message) Q := by
  split
  · next hc => exact hf hc
  · next hc => exact error fun hq => absurd (hQ _ _ hq) hc

variable {S : (T → T' → Prop) → (Ty T → Ty T' → Prop) → α → β → Prop} {step : α → β → Walk T T'}
  (h : ∀ a b, Checks r r' ρ R (step a b) fun ρ R => S ρ R a b)

include h

theorem named (x : String × α) (y : String × β) :
    Checks r r' ρ R (named message step x y) fun ρ R => Named (S ρ R) x y :=
  guard (fun hxy => (h x.2 y.2).iff fun _ _ => (and_iff_right hxy).symm) fun _ _ => And.left

theorem zip :
    ∀ (xs : List α) (ys : List β), xs.length = ys.length →
      Checks r r' ρ R (zip step xs ys) fun ρ R => List.Forall₂ (S ρ R) xs ys
  | [], [], _ => ok fun _ _ => .nil
  | x :: xs, y :: ys, hlen => ((h x y).bind (zip xs ys (Nat.succ.inj hlen))).iff fun _ _ =>
    List.forall₂_cons.symm

theorem zipped (xs : List α) (ys : List β) :
    Checks r r' ρ R (if xs.length = ys.length then TypeGraph.zip step xs ys else refuse message)
      fun ρ R => List.Forall₂ (S ρ R) xs ys :=
  guard (zip h xs ys) fun _ _ => List.Forall₂.length_eq

theorem entries {right : List (String × β)} : ∀ left : List (String × α),
    Checks r r' ρ R (entries message step left right) fun ρ R =>
      ∀ x ∈ left, ∃ b, right.lookup x.1 = some b ∧ S ρ R x.2 b
  | [] => ok nofun
  | x :: left => by
    have hx : Checks r r' ρ R (fun g => match right.lookup x.1 with
        | none => refuse message g
        | some b => step x.2 b g) fun ρ R => ∃ b, right.lookup x.1 = some b ∧ S ρ R x.2 b := by
      cases hb : right.lookup x.1 with
      | none => exact error nofun
      | some b => exact (h x.2 b).iff (by simp)
    exact (hx.bind (entries left)).iff fun _ _ => by rw [List.forall_mem_cons]

omit h in
theorem optional {below : Ty T → Ty T' → Walk T T'}
    (h : ∀ a b, Checks r r' ρ R (below a b) fun _ R => R a b) :
    ∀ a b, Checks r r' ρ R (optional below a b) fun _ R => Option.Rel R a b
  | none, none => ok fun _ _ => .none
  | some a, some b => (h a b).iff fun _ _ => ⟨.some, fun | .some h => h⟩
  | none, some _ => error nofun
  | some _, none => error nofun

end Checks

/-! ### The walk -/

variable [DecidableEq T] [DecidableEq T']

theorem resource_checks (a : T) (b : T') :
    Checks r r' ρ R (resource r r' a b) fun ρ _ => ρ a b := by
  intro g hg
  unfold resource
  cases hx : resourceName r a with
  | error d => exact fun hab hs => by simpa [hx] using hs.1.named a b hab
  | ok x =>
    cases hy : resourceName r' b with
    | error d => exact fun hab hs => by simpa [hy] using hs.1.named a b hab
    | ok y =>
      show Established _ _ _ _ _ _ (if _ then _ else _)
      split
      · next hne =>
        intro hab hs
        simp only [Option.any_eq_true, decide_eq_true_eq] at hne
        obtain hne | ⟨c, hc, hne⟩ | ⟨c, hc, hne⟩ := hne
        · obtain ⟨name, hname, hname'⟩ := hs.1.named a b hab
          grind
        · exact absurd (hs.1.left a c b (hs.2 a c hc) hab) hne
        · exact absurd (hs.1.right c a b (hs.2 c b ((hg.1 c b).mpr hc)) hab) hne
      · next h =>
        simp only [not_or, not_not, Option.any_eq_true, not_exists, not_and, decide_eq_true_eq] at h
        obtain ⟨rfl, hl, hr⟩ := h
        have hback := fun c e (h : update g.resources a (some b) c = some e) =>
          show c = a ∧ e = b ∨ g.resources c = some e by grind [Function.update_apply]
        refine ⟨⟨fun c e => ?_, fun c e hce => ?_⟩, ⟨fun _ => id, fun c e hce => ?_⟩,
          fun _ _ => .inl, fun h hh => hh.2 a b (Function.update_self ..),
          fun hab hs => ⟨hs.1, fun c e hce => ?_⟩⟩
        · have := hg.1 c e
          grind [Function.update_apply]
        · obtain ⟨rfl, rfl⟩ | hce := hback c e hce
          · exact ⟨x, hx, hy⟩
          · exact hg.2 c e hce
        · grind [Function.update_apply]
        · obtain ⟨rfl, rfl⟩ | hce := hback c e hce
          · exact hab
          · exact hs.2 c e hce

theorem visit_checks {rest : T → T' → Walk T T'} {depth : ℕ}
    (hR : R ≤ SameTo r r' ρ (depth + 1))
    (hrest : ∀ a b, Checks r r' ρ (SameTo r r' ρ depth) (rest a b)
      fun ρ R => KindRel (ρ a b) R (r.types a).kind (r'.types b).kind)
    (left : Ty T) (right : Ty T') :
    Checks r r' ρ R (visit r r' rest left right) fun _ R => R left right := by
  intro g hg
  unfold visit
  split
  · exact fun _ _ => by simp [Exceeds]
  cases hx : canonical r (maxDepth + 1) left with
  | error d => exact fun _ _ => canonical_error hx
  | ok x =>
    cases hy : canonical r' (maxDepth + 1) right with
    | error d => exact fun _ _ => canonical_error hy
    | ok y =>
      have hiff := fun P => reaches_iff (P := P) (canonical_ok hx) (canonical_ok hy)
      have hends := fun hq => (hiff _).mp (hR left right hq)
      cases x with
      | primitive p =>
        cases y with
        | primitive q =>
          show Established _ _ _ _ _ _ (if _ then _ else _)
          split
          · next h =>
            exact ⟨hg, .refl _, fun _ _ => .inl, fun _ _ => (hiff _).mpr h, fun _ => id⟩
          · next h => exact fun hq => absurd (hends hq) h
        | id b => exact fun hq => (hends hq).elim
      | id a =>
        cases y with
        | primitive q => exact fun hq => (hends hq).elim
        | id b =>
          show Established _ _ _ _ _ _ (if _ then _ else _)
          split
          · next h =>
            exact ⟨hg, .refl _, fun _ _ => .inl, fun _ hh => (hiff _).mpr (hh.1 h), fun _ => id⟩
          · show Established _ _ _ _ _ _ (rest a b (.mk ..))
            -- The pair is taken for equal while its own definition is compared.
            cases hstep : rest a b (.mk ..) with
            | error d => exact fun hq => (hrest a b).result hstep hg (hends hq)
            | ok g' =>
              obtain ⟨hinv, hext, hclosed, hQ, hsane⟩ := (hrest a b).result hstep hg
              refine ⟨hinv, ⟨fun p hp => hext.1 (.tail _ hp), hext.2⟩, fun c e hce => ?_,
                fun h hh => (hiff _).mpr (hh.1 (hext.1 (.head _))), fun hq => hsane (hends hq)⟩
              obtain hce | hce := hclosed c e hce
              · cases hce with
                | head => exact .inr hQ
                | tail _ hce => exact .inl hce
              · exact .inr hce

theorem definition_checks {ty below : Ty T → Ty T' → Walk T T'}
    (hty : ∀ a b, Checks r r' ρ R (ty a b) fun _ R => R a b)
    (hbelow : ∀ a b, Checks r r' ρ R (below a b) fun _ R => R a b) (a : T) (b : T') :
    Checks r r' ρ R (definition r r' ty below a b)
      fun ρ R => KindRel (ρ a b) R (r.types a).kind (r'.types b).kind := by
  unfold definition
  generalize (r.types a).kind = k, (r'.types b).kind = k'
  split
  · exact resource_checks a b
  · exact hty _ _
  · exact hty _ _
  · exact .zipped (.named hty) _ _
  · exact .zipped (.named (.optional hbelow)) _ _
  · exact .guard (fun h => .ok fun _ _ => h) fun _ _ => id
  · exact .guard (fun h => .ok fun _ _ => h) fun _ _ => id
  · exact .zipped hty _ _
  · exact hty _ _
  · exact hty _ _
  · exact (Checks.optional hbelow _ _).bind (.optional hbelow _ _)
  · refine .error fun hk => ?_
    unfold KindRel at hk
    split at hk <;> grind

theorem ty_checks : ∀ {depth : ℕ} {R}, R ≤ SameTo r r' ρ depth → ∀ a b,
    Checks r r' ρ R (ty r r' depth a b) fun _ R => R a b
  | 0, _, _ => fun _ _ => .error fun _ => by simp [Exceeds]
  | 1, _, h => visit_checks h fun _ _ => .error fun _ => by simp [Exceeds]
  | depth + 2, _, h =>
    visit_checks h (definition_checks (ty_checks le_rfl) (ty_checks (SameTo.le_succ depth)))

/-! ### Worlds -/

/-- Where every name of the left map is one of the right, the code looks all of them up. -/
theorem related_iff {S : α → β → Prop} {left : List (String × α)} {right : List (String × β)}
    (hr : (right.map Prod.fst).Nodup) (hnames : left.map Prod.fst ⊆ right.map Prod.fst) :
    (∀ name a b, (name, a) ∈ left → (name, b) ∈ right → S a b) ↔
      ∀ x ∈ left, ∃ b, right.lookup x.1 = some b ∧ S x.2 b := by
  simp only [← mem_iff_lookup hr]
  constructor
  · intro h x hx
    obtain ⟨y, hy, hxy⟩ := List.mem_map.mp (hnames (List.mem_map_of_mem hx))
    exact ⟨y.2, hxy ▸ hy, h x.1 x.2 y.2 hx (hxy ▸ hy)⟩
  · intro h name a b ha hb
    obtain ⟨b', hb', hab⟩ := h _ ha
    rw [mem_iff_lookup hr] at hb hb'
    exact Option.some.inj (hb'.symm.trans hb) ▸ hab

theorem entriesRel_iff {S : α → β → Prop} {left : List (String × α)} {right : List (String × β)}
    (hl : (left.map Prod.fst).Nodup) (hr : (right.map Prod.fst).Nodup) :
    EntriesRel S left right ↔
      left.length = right.length ∧ ∀ x ∈ left, ∃ b, right.lookup x.1 = some b ∧ S x.2 b := by
  constructor
  · rintro ⟨hperm, h⟩
    exact ⟨by simpa using hperm.length_eq, (related_iff hr hperm.subset).mp h⟩
  · rintro ⟨hlen, h⟩
    have hnames : left.map Prod.fst ⊆ right.map Prod.fst := by
      intro name hname
      obtain ⟨x, hx, rfl⟩ := List.mem_map.mp hname
      obtain ⟨b, hb, -⟩ := h x hx
      exact List.mem_map_of_mem ((mem_iff_lookup hr).mpr hb)
    exact ⟨(hl.subperm hnames).perm_of_length_le (by simp [hlen]), (related_iff hr hnames).mpr h⟩

section

variable (h : R ≤ SameTo r r' ρ (maxDepth + 1))

include h

theorem function_checks (left : Function T) (right : Function T') :
    Checks r r' ρ R (function r r' left right) fun _ R => FunctionRel R left right := by
  have hty := ty_checks h
  have hbelow := ty_checks (h.trans (SameTo.le_succ maxDepth))
  have hkind : Checks r r' ρ R (functionKind r r' left.kind right.kind)
      fun _ R => FunctionKindRel R left.kind right.kind := by
    unfold functionKind
    generalize left.kind = k, right.kind = k'
    split
    · exact .ok fun _ _ => trivial
    · exact hty _ _
    · exact hty _ _
    · exact hty _ _
    · refine .error fun hk => ?_
      unfold FunctionKindRel at hk
      split at hk <;> grind
  refine .guard (fun hc => ?_) fun _ _ h => ⟨h.1, h.2.2.1.length_eq⟩
  exact (hkind.bind ((Checks.zip (.named hty) _ _ hc.2).bind (.optional hbelow _ _))).iff
    fun _ _ => (and_iff_right hc.1).symm

theorem interface_checks (left : I) (right : I') :
    Checks r r' ρ R (interface r r' left right) fun _ R => InterfaceRel r r' R left right := by
  have htypes := fun S => entriesRel_iff (S := S) (r.interfaces left).types_nodup
    (r'.interfaces right).types_nodup
  have hfunctions := fun S => entriesRel_iff (S := S) (r.interfaces left).functions_nodup
    (r'.interfaces right).functions_nodup
  refine .guard (fun hc => ?_) fun _ _ h => ⟨((htypes _).mp h.1).1, ((hfunctions _).mp h.2).1⟩
  refine ((Checks.entries (fun a b => ty_checks h (.id a) (.id b)) _).bind
    (.entries (function_checks h) _)).iff fun _ R => ?_
  unfold InterfaceRel
  rw [htypes, hfunctions, and_iff_right hc.1, and_iff_right hc.2]

end

omit [DecidableEq T] in
theorem foldlM_interfaces [DecidableEq I] {resolve : Resolve T I} {m : OrderedMap String I}
    (items : List (WorldKey I × WorldItem I)) (acc : OrderedMap String I) :
    items.foldlM (interfacesRound resolve) acc = .ok m ↔ Profile resolve items
      ∧ (∀ e ∈ identified resolve items, acc.get? e.1 = none)
      ∧ m = acc.insertAll (identified resolve items) := by
  unfold Profile
  induction items generalizing acc with
  | nil => simp [identified, OrderedMap.insertAll, eq_comm (b := m)]
  | cons item items ih =>
    obtain ⟨key, item⟩ := item
    rw [List.foldlM_cons, Checked.bind_eq_ok]
    simp only [ih]
    cases item with
    | other => simp [interfacesRound, Reviewed]
    | interface id =>
      cases hid : resolve.idOf id with
      | none => simp [interfacesRound, Reviewed, hid]
      | some name =>
        have hcons : identified resolve ((key, .interface id) :: items)
          = (name, id) :: identified resolve items := by simp [identified, hid]
        rw [hcons]
        simp only [interfacesRound, hid]
        split
        · next hc =>
          simp [Reviewed, hid]
          grind
        · next hc =>
          obtain ⟨hkey, hacc⟩ : keyMatches id name key ∧ acc.get? name = none := by simpa using hc
          simp [Reviewed, hid, hkey, hacc, OrderedMap.get?_insert, OrderedMap.insertAll]
          grind

section Worlds

variable [DecidableEq I] [DecidableEq I']

/-- What the comparison of the imports or of the exports establishes. -/
theorem items_checks (h : R ≤ SameTo r r' ρ (maxDepth + 1))
    (left : List (WorldKey I × WorldItem I)) (right : List (WorldKey I' × WorldItem I')) :
    Checks r r' ρ R (items r r' left right) fun _ R =>
      (Profile r left ∧ Profile r' right) ∧ EntriesRel (InterfaceRel r r' R)
        (identified r left) (identified r' right) := by
  intro g hg
  unfold items
  cases hm : left.foldlM (interfacesRound r) .empty with
  | error d =>
    intro hq
    simpa [hm] using (foldlM_interfaces left .empty).mpr ⟨hq.1.1, fun _ _ => rfl, rfl⟩
  | ok m =>
    cases hm' : right.foldlM (interfacesRound r') .empty with
    | error d =>
      intro hq
      simpa [hm'] using (foldlM_interfaces right .empty).mpr ⟨hq.1.2, fun _ _ => rfl, rfl⟩
    | ok m' =>
      obtain ⟨hleft, -, rfl⟩ := (foldlM_interfaces left .empty).mp hm
      obtain ⟨hright, -, rfl⟩ := (foldlM_interfaces right .empty).mp hm'
      have hperm := OrderedMap.perm_insertAll_empty hleft.2
      have hperm' := OrderedMap.perm_insertAll_empty hright.2
      have hkeys := ((hperm.map Prod.fst).congr_left _).trans
        ((hperm'.map Prod.fst).congr_right _)
      refine Checks.guard (fun hc => (Checks.entries (interface_checks h) _).iff fun _ R => ?_)
        (fun _ _ hq => ?_) g hg
      · have hnames := hkeys.mp (.of_eq hc)
        rw [and_iff_right ⟨hleft, hright⟩, EntriesRel, and_iff_right hnames]
        simp only [← hperm.mem_iff, ← hperm'.mem_iff]
        exact (related_iff (OrderedMap.nodup_keys _) (hkeys.mpr hnames).subset).symm
      · exact OrderedMap.keys_eq_of_perm (hkeys.mpr hq.2.1)

end Worlds

end Steps

/-- A world whose only import is a function. -/
def functionWorld : World Empty := ⟨[(.name "run", .other)], []⟩

def noTypes : Resolve Empty Empty := ⟨nofun, nofun, nofun⟩

end Zryna.Backend.WebAssembly.TypeGraph
