import Zryna.Foundation.LittleEndian
import Zryna.Layout.Preflight

/-!
# Canonical type keys

The second pass of the aggregate layout verifier. The key of a type starts with a tag and, for a
nominal type, its declaration; the key of a container goes on with the length and the bytes of the
key of its element. `buildKey` computes the keys by a recursion that remembers what it has built
and that stops at a depth of `maxTraversalDepth`.

The depth is counted from the node that the recursion happens to start at, and nodes that were
built before are not entered again. Hence `canonicalKeys_eq`: the pass ends with keys exactly when
the graph has keys, and when every node is within the depth limit of the *first* node that leads to
it (`WithinKeyDepth`), which depends on the numbering.
-/

namespace Zryna.Layout.Aggregate

open Raw List Option

/-! ### The pass -/

/-- A key: its first bytes, and the child whose length and key follow them. -/
structure CanonicalKey where
  lead : List ℕ
  child : Option ℕ
  encodedLen : ℕ
deriving DecidableEq

/-- At most nine bytes are stored, and the length is a checked `usize`. -/
def CanonicalKey.new (lead : List ℕ) (child : Option ℕ) (childLen : ℕ) : Option CanonicalKey :=
  let encodedLen := lead.length + if child.isSome then 4 + childLen else 0
  if lead.length ≤ 9 ∧ encodedLen < 2 ^ 64 then some ⟨lead, child, encodedLen⟩ else none

/-- The tag of a type and what follows it before a child. A borrow has no key. -/
def keyLead : TypeKind → List ℕ
  | .bool => [0x00]
  | .i32 => [0x01]
  | .string => [0x02]
  | .struct module declaration _ => 0x10 :: (leBytes 4 module ++ leBytes 4 declaration)
  | .enum module declaration _ => 0x11 :: (leBytes 4 module ++ leBytes 4 declaration)
  | .fixedArray _ length => 0x20 :: leBytes 4 length
  | .vec _ => [0x21]
  | .shared _ => [0x22]
  | .weak _ => [0x23]
  | .borrow _ => []

/-- The child whose key a key contains. -/
def keyChild : TypeKind → Option ℕ
  | .fixedArray element _ | .vec element => some element
  | .shared payload | .weak payload => some payload
  | _ => none

/-- Why a type has no key of its own. -/
def keyError (node : TypeNode) : Option Diagnostic :=
  match node.kind with
  | .fixedArray _ length =>
    if length < 2 ^ 32 then none
    else some (errorAt node.span "ZRYNA-L3003"
      "fixed-array length does not fit the canonical key" "use an admitted fixed-array length")
  | .borrow _ =>
    some (errorAt node.span "ZRYNA-L3004" "borrow authorities have no stored layout"
      "remove the borrow from the stored type graph")
  | _ => none

/-- Progress of the recursion at one node. -/
inductive KeyMark where
  | unvisited
  | active
  | built
deriving DecidableEq

structure KeyState where
  marks : ℕ → KeyMark
  keys : ℕ → Option CanonicalKey
  events : List (Event Diagnostic)

namespace KeyState

variable (st : KeyState)

def mark (index : ℕ) (mark : KeyMark) : KeyState :=
  { st with marks := Function.update st.marks index mark }

def report (event : Event Diagnostic) : KeyState := { st with events := st.events ++ [event] }

/-- The node is built, with a key or without. -/
def finish (index : ℕ) (key : Option CanonicalKey) : KeyState :=
  { st with
    marks := Function.update st.marks index .built
    keys := Function.update st.keys index key }

end KeyState

/-- Builds the key of one node. `remaining` is `maxTraversalDepth + 1` less the depth of the call.
Indices are in range after the preflight. -/
def buildKey (graph : Graph) (remaining index : ℕ) (st : KeyState) : KeyState :=
  if st.marks index = .built then st
  else match remaining with
    | 0 => st.report (.limit (limitError "canonical type-key depth" maxTraversalDepth))
    | remaining + 1 =>
      match graph.types[index]? with
      | none => st
      | some node =>
        if st.marks index = .active then
          st.report (.push (errorAt node.span "ZRYNA-L3003"
            "structural container identity is recursive"
            "place recursion behind a nominal Vec, Shared, or Weak payload"))
        else
          let st := st.mark index .active
          match keyError node, keyChild node.kind with
          | some error, _ => (st.report (.push error)).finish index none
          | none, none => st.finish index (CanonicalKey.new (keyLead node.kind) none 0)
          | none, some child =>
            let st := buildKey graph remaining child st
            st.finish index ((st.keys child).bind fun key =>
              CanonicalKey.new (keyLead node.kind) (some child) key.encodedLen)

/-- Keys of all nodes, in their order. The verifier leaves the loop at the first limit. -/
def canonicalKeys (graph : Graph) : Report Diagnostic (Option (List CanonicalKey)) :=
  let st := (List.range graph.types.length).foldl
    (fun st index => buildKey graph (maxTraversalDepth + 1) index st)
    ⟨fun _ => .unvisited, fun _ => none, []⟩
  ⟨(List.range graph.types.length).mapM st.keys, st.events⟩

/-- The bytes of a key: its lead, and the length and the bytes of its child. A child has a shorter
key, so as many rounds as a key has bytes are enough. -/
def flattenKey (keys : List CanonicalKey) : ℕ → ℕ → List ℕ
  | 0, _ => []
  | rounds + 1, index =>
    match keys[index]? with
    | none => []
    | some key =>
      key.lead ++
        match key.child with
        | none => []
        | some child =>
          match keys[child]? with
          | none => []
          | some childKey =>
            if childKey.encodedLen < 2 ^ 32 then
              leBytes 4 childKey.encodedLen ++ flattenKey keys rounds child
            else []

def keyBytes (keys : List CanonicalKey) (index : ℕ) : List ℕ :=
  flattenKey keys ((keys[index]?.map CanonicalKey.encodedLen).getD 0 + 1) index

/-! ### What keys are -/

section Keyed

variable (graph : Graph)

def keyChildAt (index : ℕ) : Option ℕ := (graph.types[index]?).bind fun node => keyChild node.kind

/-- The key of a node, from the key of its child. -/
def localKey (keys : ℕ → Option CanonicalKey) (index : ℕ) : Option CanonicalKey :=
  (graph.types[index]?).bind fun node =>
    match keyError node, keyChild node.kind with
    | some _, _ => none
    | none, none => CanonicalKey.new (keyLead node.kind) none 0
    | none, some child => (keys child).bind fun key =>
      CanonicalKey.new (keyLead node.kind) (some child) key.encodedLen

/-- The keys of a graph: every node has a key, which it gets from the key of its child. -/
structure Keyed (keys : List CanonicalKey) : Prop where
  length_eq : keys.length = graph.types.length
  eq : ∀ i < graph.types.length, localKey graph (fun j => keys[j]?) i = keys[i]?

/-- `d` is `k` children below `i`. -/
inductive Leads : ℕ → ℕ → ℕ → Prop
  | zero (i : ℕ) : Leads 0 i i
  | succ {k i c d : ℕ} (hc : keyChildAt graph i = some c) (hd : Leads k c d) : Leads (k + 1) i d

/-- Every node is within the depth limit of the first node that leads to it. -/
def WithinKeyDepth : Prop :=
  ∀ i < graph.types.length, ∀ k c, Leads graph k i c → (∀ j < i, ∀ m, ¬Leads graph m j c) →
    k ≤ maxTraversalDepth

/-- Children of nodes are nodes. -/
def KeyChildrenInRange : Prop :=
  ∀ i c, keyChildAt graph i = some c → c < graph.types.length

end Keyed

theorem validRef_lt {graph : Graph} {id : ℕ} (h : validRef graph id = true) :
    id < graph.types.length := by
  unfold validRef at h
  by_contra hge
  rw [getElem?_eq_none (Nat.not_lt.mp hge)] at h
  cases h

theorem Admitted.keyChildrenInRange {graph : Graph} {sources : SourceMap}
    (h : Admitted graph sources) : KeyChildrenInRange graph := by
  intro i c hc
  obtain ⟨node, hnode, hchild⟩ := bind_eq_some_iff.mp hc
  have hshape := h.shape node (mem_of_getElem? hnode)
  obtain ⟨id, span, kind⟩ := node
  cases kind <;> simp only [keyChild, Option.some.injEq, reduceCtorEq] at hchild <;> subst hchild
  all_goals
    simp only [verifyNodeShape, verifyContainer, Report.clean_pushIf, not_or, not_not] at hshape
    first
    | exact validRef_lt hshape
    | exact validRef_lt hshape.1

theorem CanonicalKey.new_eq_some {lead : List ℕ} {child : Option ℕ} {childLen : ℕ}
    {key : CanonicalKey} (h : CanonicalKey.new lead child childLen = some key) :
    key.lead = lead ∧ key.child = child
      ∧ key.encodedLen = lead.length + if child.isSome then 4 + childLen else 0 := by
  unfold CanonicalKey.new at h
  dsimp only at h
  obtain ⟨-, hkey⟩ := ite_none_right_eq_some.mp h
  cases hkey
  exact ⟨rfl, rfl, rfl⟩

theorem localKey_congr {graph : Graph} {keys keys' : ℕ → Option CanonicalKey} {i : ℕ}
    (h : ∀ c, keyChildAt graph i = some c → keys c = keys' c) :
    localKey graph keys i = localKey graph keys' i := by
  unfold localKey
  unfold keyChildAt at h
  cases hnode : graph.types[i]? with
  | none => rfl
  | some node =>
    rw [hnode, bind_some] at h
    rw [bind_some, bind_some]
    split
    · rfl
    · rfl
    · next child _ hchild => rw [h child hchild]

namespace Keyed

variable {graph : Graph} {keys : List CanonicalKey} (h : Keyed graph keys)
include h

variable {i : ℕ} {key : CanonicalKey}

/-- A key is made of its node and of the key of the child. -/
theorem key_eq (hkey : keys[i]? = some key) :
    ∃ node, graph.types[i]? = some node ∧ keyError node = none ∧ key.lead = keyLead node.kind
      ∧ key.child = keyChild node.kind
      ∧ (key.child = none ∧ key.encodedLen = key.lead.length
        ∨ ∃ child childKey, key.child = some child ∧ keys[child]? = some childKey
          ∧ key.encodedLen = key.lead.length + (4 + childKey.encodedLen)) := by
  have hi : i < graph.types.length := h.length_eq ▸ (List.getElem?_eq_some_iff.mp hkey).1
  have heq := h.eq i hi
  rw [hkey] at heq
  unfold localKey at heq
  rw [getElem?_eq_getElem hi, bind_some] at heq
  refine ⟨graph.types[i], getElem?_eq_getElem hi, ?_⟩
  split at heq
  · cases heq
  · next herror hchild =>
    obtain ⟨hlead, hkeyChild, hlen⟩ := CanonicalKey.new_eq_some heq
    exact ⟨herror, hlead, hkeyChild.trans hchild.symm, .inl ⟨hkeyChild, by simp [hlen, hlead]⟩⟩
  · next child herror hchild =>
    obtain ⟨childKey, hchildKey, hnew⟩ := bind_eq_some_iff.mp heq
    obtain ⟨hlead, hkeyChild, hlen⟩ := CanonicalKey.new_eq_some hnew
    exact ⟨herror, hlead, hkeyChild.trans hchild.symm,
      .inr ⟨child, childKey, hkeyChild, hchildKey, by simp [hlen, hlead]⟩⟩

theorem child_shorter {c : ℕ} (hc : keyChildAt graph i = some c) :
    ∃ key childKey, keys[i]? = some key ∧ keys[c]? = some childKey
      ∧ childKey.encodedLen < key.encodedLen := by
  obtain ⟨node, hnode, hchild⟩ := bind_eq_some_iff.mp hc
  have hi : i < keys.length := h.length_eq ▸ (List.getElem?_eq_some_iff.mp hnode).1
  obtain ⟨node', hnode', -, -, hkeyChild, hlen⟩ := h.key_eq (getElem?_eq_getElem hi)
  rw [hnode, Option.some.injEq] at hnode'
  subst hnode'
  rw [hchild] at hkeyChild
  obtain ⟨hnone, -⟩ | ⟨child, childKey, hsome, hchildKey, hlen⟩ := hlen
  · rw [hkeyChild] at hnone
    cases hnone
  · rw [hkeyChild, Option.some.injEq] at hsome
    subst hsome
    exact ⟨keys[i], childKey, getElem?_eq_getElem hi, hchildKey, by omega⟩

/-- As many rounds as a key has bytes write the whole key. -/
theorem length_flattenKey {rounds : ℕ} (hkey : keys[i]? = some key)
    (hrounds : key.encodedLen < rounds) (hlen : key.encodedLen < 2 ^ 32) :
    (flattenKey keys rounds i).length = key.encodedLen := by
  induction rounds generalizing i key with
  | zero => exact absurd hrounds (Nat.not_lt_zero _)
  | succ rounds ih =>
    obtain ⟨node, -, -, -, -, hencoded⟩ := h.key_eq hkey
    unfold flattenKey
    rw [hkey]
    obtain ⟨hnone, hencoded⟩ | ⟨child, childKey, hsome, hchildKey, hencoded⟩ := hencoded
    · simp [hnone, hencoded]
    · have hchildLen : childKey.encodedLen < 2 ^ 32 := by omega
      have hrest := ih hchildKey (by omega) hchildLen
      simp only [hsome, hchildKey]
      rw [if_pos hchildLen, length_append, length_append, length_leBytes, hrest]
      exact hencoded.symm

theorem length_keyBytes (hkey : keys[i]? = some key)
    (hlen : key.encodedLen < 2 ^ 32) : (keyBytes keys i).length = key.encodedLen := by
  unfold keyBytes
  refine h.length_flattenKey hkey ?_ hlen
  rw [hkey]
  exact Nat.lt_succ_self _

end Keyed

/-! ### The recursion -/

section Recursion

variable {graph : Graph} {st : KeyState}

/-- What holds of the state between calls that report nothing. -/
structure KeyInv (graph : Graph) (st : KeyState) : Prop where
  events : st.events = []
  lt : ∀ i, st.marks i = .built → i < graph.types.length
  closed : ∀ i c, st.marks i = .built → keyChildAt graph i = some c → st.marks c = .built
  keys : ∀ i key, st.keys i = some key →
    st.marks i = .built ∧ localKey graph st.keys i = some key

namespace KeyInv

variable (h : KeyInv graph st)
include h

theorem leads_built {k i c : ℕ} (hi : st.marks i = .built) (hc : Leads graph k i c) :
    st.marks c = .built := by
  induction hc with
  | zero => exact hi
  | succ hc _ ih => exact ih (h.closed _ _ hi hc)

variable {index : ℕ}

theorem mark_active (hindex : st.marks index ≠ .built) : KeyInv graph (st.mark index .active) := by
  have hmarks (i : ℕ) : (st.mark index .active).marks i = .built ↔ st.marks i = .built := by
    unfold KeyState.mark
    by_cases hi : i = index
    · subst hi
      simp [hindex]
    · simp [Function.update_of_ne hi]
  refine ⟨h.events, fun i hi => h.lt i ((hmarks i).mp hi), fun i c hi hc => ?_, fun i key hi => ?_⟩
  · exact (hmarks c).mpr (h.closed i c ((hmarks i).mp hi) hc)
  · obtain ⟨hbuilt, hkey⟩ := h.keys i key hi
    exact ⟨(hmarks i).mpr hbuilt, hkey⟩

theorem finish (hlt : index < graph.types.length) (hindex : st.marks index ≠ .built)
    (hchild : ∀ c, keyChildAt graph index = some c → st.marks c = .built)
    {key : Option CanonicalKey} (hkey : ∀ k, key = some k → localKey graph st.keys index = some k) :
    KeyInv graph (st.finish index key) := by
  have hmarks (i : ℕ) :
      (st.finish index key).marks i = .built ↔ i = index ∨ st.marks i = .built := by
    unfold KeyState.finish
    by_cases hi : i = index
    · subst hi
      simp
    · simp [hi]
  -- the key of a built child is not touched
  have hkeys {i : ℕ} (hi : ∀ c, keyChildAt graph i = some c → st.marks c = .built) :
      localKey graph (st.finish index key).keys i = localKey graph st.keys i := by
    refine localKey_congr fun c hc => Function.update_of_ne ?_ _ _
    rintro rfl
    exact hindex (hi c hc)
  refine ⟨h.events, fun i hi => ?_, fun i c hi hc => ?_, fun i k hi => ?_⟩
  · obtain rfl | hi := (hmarks i).mp hi
    · exact hlt
    · exact h.lt i hi
  · rw [hmarks] at hi ⊢
    obtain rfl | hi := hi
    · exact .inr (hchild c hc)
    · exact .inr (h.closed i c hi hc)
  · by_cases hindex' : i = index
    · subst hindex'
      refine ⟨(hmarks i).mpr (.inl rfl), ?_⟩
      rw [hkeys hchild]
      exact hkey k (by simpa [KeyState.finish] using hi)
    · have hi' : st.keys i = some k := by
        simpa [KeyState.finish, Function.update_of_ne hindex'] using hi
      obtain ⟨hbuilt, hlocal⟩ := h.keys i k hi'
      refine ⟨(hmarks i).mpr (.inr hbuilt), ?_⟩
      rw [hkeys fun c hc => h.closed i c hbuilt hc, hlocal]

end KeyInv

/-- The state after the child of a node is built, for a node that is entered. -/
def enterNode (graph : Graph) (remaining index : ℕ) (st : KeyState) : KeyState :=
  match keyChildAt graph index with
  | none => st.mark index .active
  | some child => buildKey graph remaining child (st.mark index .active)

variable {index remaining : ℕ}

theorem buildKey_built (remaining : ℕ) (h : st.marks index = .built) :
    buildKey graph remaining index st = st := by
  cases remaining <;> exact if_pos h

/-- A node that is entered gets its key from the key of its child. -/
theorem buildKey_unvisited (remaining : ℕ) {node : TypeNode}
    (hnode : graph.types[index]? = some node) (herror : keyError node = none)
    (hmark : st.marks index = .unvisited) :
    buildKey graph (remaining + 1) index st
      = (enterNode graph remaining index st).finish index
        (localKey graph (enterNode graph remaining index st).keys index) := by
  refine (if_neg (by rw [hmark]; decide)).trans ?_
  simp only [hnode]
  rw [if_neg (by rw [hmark]; decide)]
  unfold localKey enterNode keyChildAt
  rw [hnode, bind_some, bind_some, herror]
  cases keyChild node.kind <;> rfl

/-- Calls only add to what is reported. -/
theorem events_buildKey (remaining index : ℕ) (st : KeyState)
    (h : (buildKey graph remaining index st).events = []) : st.events = [] := by
  induction remaining generalizing index st with
  | zero =>
    unfold buildKey at h
    split at h
    · exact h
    · simp [KeyState.report] at h
  | succ remaining ih =>
    unfold buildKey at h
    split at h
    · exact h
    · dsimp only at h
      split at h
      · exact h
      · split at h
        · simp [KeyState.report] at h
        · split at h
          · simp [KeyState.report, KeyState.finish] at h
          · exact h
          · exact ih _ (st.mark index .active) h

/-- A call that reports nothing and has to build its node may enter it. -/
theorem buildKey_enters (hindex : index < graph.types.length)
    (hbuilt : st.marks index ≠ .built) (hclean : (buildKey graph remaining index st).events = []) :
    ∃ left node, remaining = left + 1 ∧ graph.types[index]? = some node ∧ keyError node = none
      ∧ st.marks index = .unvisited := by
  unfold buildKey at hclean
  rw [if_neg hbuilt] at hclean
  cases remaining with
  | zero => simp [KeyState.report] at hclean
  | succ left =>
    refine ⟨left, graph.types[index], rfl, getElem?_eq_getElem hindex, ?_⟩
    simp only [getElem?_eq_getElem hindex] at hclean
    split at hclean
    · simp [KeyState.report] at hclean
    · next hactive =>
      split at hclean
      · simp [KeyState.report, KeyState.finish] at hclean
      all_goals
        next herror _ =>
        refine ⟨herror, ?_⟩
        cases hmark : st.marks index with
        | unvisited => rfl
        | active => exact absurd hmark hactive
        | built => exact absurd hmark hbuilt

/-- What a call that reports nothing does: it builds the nodes that its node leads to, and the new
ones among them are within its depth. -/
structure Builds (graph : Graph) (remaining index : ℕ) (st st' : KeyState) : Prop where
  inv : KeyInv graph st'
  built : ∀ i, st'.marks i = .built ↔ st.marks i = .built ∨ ∃ k, Leads graph k index i
  kept : ∀ i, st'.marks i ≠ .built → st'.marks i = st.marks i
  active : ∀ i, st.marks i = .active → st'.marks i = .active
  within : ∀ k c, Leads graph k index c → st.marks c ≠ .built → k < remaining

theorem KeyInv.builds_of_built (h : KeyInv graph st)
    (hbuilt : st.marks index = .built) : Builds graph remaining index st st where
  inv := h
  built _ := ⟨.inl, fun hi => hi.elim id fun ⟨_, hk⟩ => h.leads_built hbuilt hk⟩
  kept _ _ := rfl
  active _ hi := hi
  within _ _ hc hnot := absurd (h.leads_built hbuilt hc) hnot

theorem leads_cases {k i d : ℕ} (h : Leads graph k i d) :
    (k = 0 ∧ d = i) ∨ ∃ m c, k = m + 1 ∧ keyChildAt graph i = some c ∧ Leads graph m c d := by
  cases h with
  | zero => exact .inl ⟨rfl, rfl⟩
  | succ hc hd => exact .inr ⟨_, _, rfl, hc, hd⟩

/-- A node that is finished after its child. -/
theorem KeyInv.builds_finish {st' : KeyState} (h' : KeyInv graph st')
    (hindex : index < graph.types.length) (hunvisited : st.marks index = .unvisited)
    (hactive : st'.marks index = .active) (hbuilt : ∀ i, st'.marks i = .built ↔
      st.marks i = .built ∨ ∃ k c, keyChildAt graph index = some c ∧ Leads graph k c i)
    (hkept : ∀ i ≠ index, st'.marks i ≠ .built → st'.marks i = st.marks i)
    (hactives : ∀ i ≠ index, st.marks i = .active → st'.marks i = .active)
    (hwithin : ∀ k c d, keyChildAt graph index = some c → Leads graph k c d →
      st.marks d ≠ .built → k < remaining) :
    Builds graph (remaining + 1) index st
      (st'.finish index (localKey graph st'.keys index)) := by
  have hnot : st'.marks index ≠ .built := by
    rw [hactive]
    decide
  have hchild : ∀ c, keyChildAt graph index = some c → st'.marks c = .built :=
    fun c hc => (hbuilt c).mpr (.inr ⟨0, c, hc, .zero c⟩)
  have hself (key : Option CanonicalKey) : (st'.finish index key).marks index = .built := by
    simp [KeyState.finish]
  have hother (key : Option CanonicalKey) {i : ℕ} (hi : i ≠ index) :
      (st'.finish index key).marks i = st'.marks i := by
    simp [KeyState.finish, hi]
  refine ⟨h'.finish hindex hnot hchild fun k hk => hk, fun i => ?_, fun i hi => ?_, fun i hi => ?_,
    fun k c hc hnotBuilt => ?_⟩
  · by_cases hi : i = index
    · subst hi
      exact iff_of_true (hself _) (.inr ⟨0, .zero i⟩)
    · rw [hother _ hi, hbuilt]
      refine or_congr_right ⟨?_, ?_⟩
      · rintro ⟨k, c, hc, hk⟩
        exact ⟨k + 1, .succ hc hk⟩
      · rintro ⟨k, hk⟩
        obtain ⟨-, rfl⟩ | ⟨m, c, -, hc, hm⟩ := leads_cases hk
        · exact absurd rfl hi
        · exact ⟨m, c, hc, hm⟩
  · have hne : i ≠ index := by
      rintro rfl
      exact hi (hself _)
    rw [hother _ hne] at hi ⊢
    exact hkept i hne hi
  · have hne : i ≠ index := by
      rintro rfl
      rw [hunvisited] at hi
      cases hi
    rw [hother _ hne]
    exact hactives i hne hi
  · obtain ⟨rfl, -⟩ | ⟨m, d, rfl, hd, hm⟩ := leads_cases hc
    · exact Nat.succ_pos remaining
    · exact Nat.succ_lt_succ (hwithin m d c hd hm hnotBuilt)

theorem buildKey_builds (hrange : KeyChildrenInRange graph) (remaining : ℕ)
    (hindex : index < graph.types.length) (h : KeyInv graph st)
    (hclean : (buildKey graph remaining index st).events = []) :
    Builds graph remaining index st (buildKey graph remaining index st) := by
  induction remaining generalizing index st with
  | zero =>
    by_cases hbuilt : st.marks index = .built
    · rw [buildKey_built 0 hbuilt]
      exact h.builds_of_built hbuilt
    · obtain ⟨left, -, hzero, -⟩ := buildKey_enters hindex hbuilt hclean
      cases hzero
  | succ remaining ih =>
    by_cases hbuilt : st.marks index = .built
    · rw [buildKey_built _ hbuilt]
      exact h.builds_of_built hbuilt
    obtain ⟨left, node, -, hnode, herror, hunvisited⟩ := buildKey_enters hindex hbuilt hclean
    rw [buildKey_unvisited remaining hnode herror hunvisited] at hclean ⊢
    have hentered : KeyInv graph (st.mark index .active) := h.mark_active hbuilt
    have hmark : (st.mark index .active).marks index = .active := by simp [KeyState.mark]
    have hother {i : ℕ} (hi : i ≠ index) : (st.mark index .active).marks i = st.marks i := by
      simp [KeyState.mark, hi]
    have hmarked (i : ℕ) : (st.mark index .active).marks i = .built ↔ st.marks i = .built := by
      by_cases hi : i = index
      · subst hi
        rw [hmark, hunvisited]
        decide
      · rw [hother hi]
    unfold enterNode at hclean ⊢
    cases hchild : keyChildAt graph index with
    | none =>
      simp only [hchild] at hclean ⊢
      refine hentered.builds_finish hindex hunvisited hmark (fun i => ?_) (fun i hi _ => hother hi)
        (fun i hi hactive => (hother hi).trans hactive) fun k c d hc => ?_
      · rw [hmarked]
        simp [hchild]
      · rw [hchild] at hc
        cases hc
    | some child =>
      simp only [hchild] at hclean ⊢
      have hb := ih (hrange index child hchild) hentered hclean
      refine hb.inv.builds_finish hindex hunvisited (hb.active index hmark) (fun i => ?_)
        (fun i hi hnot => (hb.kept i hnot).trans (hother hi))
        (fun i hi hactive => hb.active i ((hother hi).trans hactive)) fun k c d hc hd hnot => ?_
      · rw [hb.built, hmarked]
        simp [hchild]
      · rw [hchild, Option.some.injEq] at hc
        subst hc
        exact hb.within k d hd fun hd' => hnot ((hmarked d).mp hd')

/-- A call within the depth limit reports nothing in a graph that has keys, and builds those keys. -/
theorem Keyed.buildKey_clean {keys : List CanonicalKey} (hkeyed : Keyed graph keys)
    (hrange : KeyChildrenInRange graph) (remaining : ℕ)
    (hindex : index < graph.types.length) (h : KeyInv graph st)
    (hvalues : ∀ i, st.marks i = .built → st.keys i = keys[i]?)
    (hactive : ∀ a key key', st.marks a = .active → keys[a]? = some key →
      keys[index]? = some key' → key'.encodedLen < key.encodedLen)
    (hwithin : ∀ k c, Leads graph k index c → st.marks c ≠ .built → k < remaining) :
    (buildKey graph remaining index st).events = []
      ∧ ∀ i, (buildKey graph remaining index st).marks i = .built →
        (buildKey graph remaining index st).keys i = keys[i]? := by
  induction remaining generalizing index st with
  | zero =>
    by_cases hbuilt : st.marks index = .built
    · rw [buildKey_built 0 hbuilt]
      exact ⟨h.events, hvalues⟩
    · exact absurd (hwithin 0 index (.zero index) hbuilt) (Nat.lt_irrefl 0)
  | succ remaining ih =>
    by_cases hbuilt : st.marks index = .built
    · rw [buildKey_built _ hbuilt]
      exact ⟨h.events, hvalues⟩
    have hkeyIndex : index < keys.length := hkeyed.length_eq ▸ hindex
    have hlocal := hkeyed.eq index hindex
    have herror : keyError graph.types[index] = none := by
      rw [getElem?_eq_getElem hkeyIndex] at hlocal
      unfold localKey at hlocal
      rw [getElem?_eq_getElem hindex, bind_some] at hlocal
      cases herror : keyError graph.types[index] with
      | none => rfl
      | some error => rw [herror] at hlocal; cases hlocal
    have hunvisited : st.marks index = .unvisited := by
      cases hmark : st.marks index with
      | unvisited => rfl
      | built => exact absurd hmark hbuilt
      | active =>
        have hkey := getElem?_eq_getElem hkeyIndex
        exact absurd (hactive index _ _ hmark hkey hkey) (Nat.lt_irrefl _)
    rw [buildKey_unvisited remaining (getElem?_eq_getElem hindex) herror hunvisited]
    have hentered : KeyInv graph (st.mark index .active) := h.mark_active hbuilt
    have hmarked {i : ℕ} (hi : (st.mark index .active).marks i = .built) : st.marks i = .built := by
      by_cases hne : i = index
      · subst hne
        simp [KeyState.mark] at hi
      · simpa [KeyState.mark, hne] using hi
    -- the state in which the key of the node is formed
    have hst : (enterNode graph remaining index st).events = []
        ∧ (∀ c, keyChildAt graph index = some c →
          (enterNode graph remaining index st).marks c = .built)
        ∧ ∀ i, (enterNode graph remaining index st).marks i = .built →
          (enterNode graph remaining index st).keys i = keys[i]? := by
      unfold enterNode
      cases hchild : keyChildAt graph index with
      | none =>
        dsimp only
        exact ⟨h.events, fun c hc => (nomatch hc), fun i hi => hvalues i (hmarked hi)⟩
      | some child =>
        obtain ⟨key, childKey, hkey, hchildKey, hshorter⟩ := hkeyed.child_shorter hchild
        have hchildIndex := hrange index child hchild
        obtain ⟨hclean, hbuiltKeys⟩ := ih hchildIndex hentered (fun i hi => hvalues i (hmarked hi))
          (fun a ka kc ha hka hkc => by
            rw [hchildKey, Option.some.injEq] at hkc
            subst hkc
            by_cases hne : a = index
            · subst hne
              rw [hkey, Option.some.injEq] at hka
              exact hka ▸ hshorter
            · have ha' : st.marks a = .active := by simpa [KeyState.mark, hne] using ha
              exact hshorter.trans (hactive a ka key ha' hka hkey))
          fun k c hc hnot => by
            have hnot' : st.marks c ≠ .built := fun hc' => by
              refine hnot ?_
              have hne : c ≠ index := by
                rintro rfl
                exact hbuilt hc'
              simpa [KeyState.mark, hne] using hc'
            exact Nat.lt_of_succ_lt_succ (hwithin (k + 1) c (.succ hchild hc) hnot')
        refine ⟨hclean, fun c hc => ?_, hbuiltKeys⟩
        rw [Option.some.injEq] at hc
        subst hc
        exact ((buildKey_builds hrange remaining hchildIndex hentered hclean).built child).mpr
          (.inr ⟨0, .zero child⟩)
    obtain ⟨hclean, hchildBuilt, hkeys⟩ := hst
    refine ⟨hclean, fun i hi => ?_⟩
    by_cases hne : i = index
    · subst hne
      rw [show ∀ st' : KeyState, ∀ key, (st'.finish i key).keys i = key by
        intro st' key; simp [KeyState.finish], ← hlocal]
      exact localKey_congr fun c hc => hkeys c (hchildBuilt c hc)
    · have hother (st' : KeyState) (key : Option CanonicalKey) :
          (st'.finish index key).marks i = st'.marks i
            ∧ (st'.finish index key).keys i = st'.keys i := by
        simp [KeyState.finish, hne]
      rw [(hother _ _).1] at hi
      rw [(hother _ _).2]
      exact hkeys i hi

end Recursion

/-! ### The loop -/

section Loop

variable {graph : Graph}

/-- The state after the nodes below `n`. -/
def keysBelow (graph : Graph) (n : ℕ) : KeyState :=
  (List.range n).foldl (fun st index => buildKey graph (maxTraversalDepth + 1) index st)
    ⟨fun _ => .unvisited, fun _ => none, []⟩

theorem keysBelow_succ (n : ℕ) : keysBelow graph (n + 1)
    = buildKey graph (maxTraversalDepth + 1) n (keysBelow graph n) := by
  unfold keysBelow
  rw [range_succ, foldl_append, foldl_cons, foldl_nil]

/-- What a loop that reports nothing has done. -/
theorem keysBelow_sound (hrange : KeyChildrenInRange graph) (n : ℕ) (hn : n ≤ graph.types.length)
    (hclean : (keysBelow graph n).events = []) :
    KeyInv graph (keysBelow graph n)
      ∧ (∀ i, (keysBelow graph n).marks i = .built ↔ ∃ j < n, ∃ k, Leads graph k j i)
      ∧ (∀ i, (keysBelow graph n).marks i ≠ .active)
      ∧ ∀ i < n, ∀ k c, Leads graph k i c → (∀ j < i, ∀ m, ¬Leads graph m j c) →
        k ≤ maxTraversalDepth := by
  induction n with
  | zero =>
    refine ⟨⟨rfl, ?_, ?_, ?_⟩, fun i => ?_, fun i => ?_, fun i hi => absurd hi (Nat.not_lt_zero i)⟩
    · intro i hi
      cases hi
    · intro i c hi
      cases hi
    · intro i key hi
      cases hi
    · refine iff_of_false (fun hi => by cases hi) ?_
      rintro ⟨j, hj, -⟩
      exact absurd hj (Nat.not_lt_zero j)
    · intro hi
      cases hi
  | succ n ih =>
    rw [keysBelow_succ] at hclean ⊢
    obtain ⟨hinv, hbuilt, hactive, hdepth⟩ := ih (by omega) (events_buildKey _ _ _ hclean)
    have hb := buildKey_builds hrange (maxTraversalDepth + 1) hn hinv hclean
    refine ⟨hb.inv, fun i => ?_, fun i hi => ?_, fun i hi k c hc hfirst => ?_⟩
    · rw [hb.built, hbuilt]
      constructor
      · rintro (⟨j, hj, hk⟩ | hk)
        · exact ⟨j, Nat.lt_succ_of_lt hj, hk⟩
        · exact ⟨n, Nat.lt_succ_self n, hk⟩
      · rintro ⟨j, hj, hk⟩
        obtain hj | rfl := Nat.lt_succ_iff_lt_or_eq.mp hj
        · exact .inl ⟨j, hj, hk⟩
        · exact .inr hk
    · refine hactive i ((hb.kept i ?_).symm.trans hi)
      rw [hi]
      decide
    · obtain hi | rfl := Nat.lt_succ_iff_lt_or_eq.mp hi
      · exact hdepth i hi k c hc hfirst
      · refine Nat.lt_succ_iff.mp (hb.within k c hc fun hc' => ?_)
        obtain ⟨j, hj, m, hm⟩ := (hbuilt c).mp hc'
        exact hfirst j hj m hm

/-- The loop reports nothing in a graph that has keys, within the depth limit. -/
theorem Keyed.keysBelow_clean {keys : List CanonicalKey} (hkeyed : Keyed graph keys)
    (hrange : KeyChildrenInRange graph) (hdepth : WithinKeyDepth graph) (n : ℕ)
    (hn : n ≤ graph.types.length) :
    (keysBelow graph n).events = []
      ∧ ∀ i, (keysBelow graph n).marks i = .built → (keysBelow graph n).keys i = keys[i]? := by
  induction n with
  | zero => exact ⟨rfl, fun i hi => by cases hi⟩
  | succ n ih =>
    obtain ⟨hclean, hvalues⟩ := ih (by omega)
    obtain ⟨hinv, hbuilt, hactive, -⟩ := keysBelow_sound hrange n (by omega) hclean
    rw [keysBelow_succ]
    refine hkeyed.buildKey_clean hrange _ hn hinv hvalues
      (fun a _ _ ha => absurd ha (hactive a)) fun k c hc hnot => ?_
    refine Nat.lt_succ_iff.mpr (hdepth n hn k c hc fun j hj m hm => hnot ?_)
    exact (hbuilt c).mpr ⟨j, hj, m, hm⟩

/-- A list of images has one image for every element. -/
theorem mapM_eq_some {α β : Type} {f : α → Option β} {xs : List α} {ys : List β} :
    xs.mapM f = some ys ↔
      ys.length = xs.length ∧ ∀ (i : ℕ) (x : α), xs[i]? = some x → f x = ys[i]? := by
  induction xs generalizing ys with
  | nil => simp [eq_comm]
  | cons x xs ih =>
    simp only [mapM_cons, bind_eq_bind, bind_eq_some_iff, Option.pure_def,
      Option.some.injEq, ih]
    constructor
    · rintro ⟨y, hy, rest, ⟨hlength, hrest⟩, rfl⟩
      refine ⟨by simp [hlength], fun i a ha => ?_⟩
      cases i with
      | zero =>
        obtain rfl : x = a := by simpa using ha
        exact hy
      | succ i => exact hrest i a (by simpa using ha)
    · rintro ⟨hlength, hall⟩
      cases ys with
      | nil => simp at hlength
      | cons y rest =>
        refine ⟨y, hall 0 x rfl, rest, ⟨by simpa using hlength, fun i a ha => ?_⟩, rfl⟩
        exact hall (i + 1) a (by simpa using ha)

/-- The pass ends with keys exactly when the graph has those keys and every node is within the
depth limit of the first node that leads to it. -/
theorem canonicalKeys_eq (hrange : KeyChildrenInRange graph) (keys : List CanonicalKey) :
    (canonicalKeys graph).Clean ∧ (canonicalKeys graph).value = some keys ↔
      Keyed graph keys ∧ WithinKeyDepth graph := by
  have hvalue : (canonicalKeys graph).value = some keys ↔ keys.length = graph.types.length
      ∧ ∀ i < graph.types.length, (keysBelow graph graph.types.length).keys i = keys[i]? := by
    refine mapM_eq_some.trans ?_
    rw [length_range]
    refine and_congr_right fun _ => ⟨fun h i hi => h i i (by simp [hi]), fun h i j hj => ?_⟩
    obtain ⟨hi, rfl⟩ := List.getElem?_eq_some_iff.mp hj
    rw [getElem_range]
    exact h i (by simpa using hi)
  rw [hvalue]
  constructor
  · rintro ⟨hclean, hlength, hkeys⟩
    obtain ⟨hinv, -, -, hdepth⟩ := keysBelow_sound hrange _ le_rfl hclean
    refine ⟨⟨hlength, fun i hi => ?_⟩, hdepth⟩
    have hkey := getElem?_eq_getElem (hlength ▸ hi : i < keys.length)
    obtain ⟨-, hlocal⟩ := hinv.keys i _ ((hkeys i hi).trans hkey)
    rw [hkey, ← hlocal]
    exact localKey_congr fun c hc => (hkeys c (hrange i c hc)).symm
  · rintro ⟨hkeyed, hdepth⟩
    obtain ⟨hclean, hvalues⟩ := hkeyed.keysBelow_clean hrange hdepth _ le_rfl
    obtain ⟨-, hbuilt, -⟩ := keysBelow_sound hrange _ le_rfl hclean
    exact ⟨hclean, hkeyed.length_eq, fun i hi =>
      hvalues i ((hbuilt i).mpr ⟨i, hi, 0, .zero i⟩)⟩

end Loop

/-! ### Renumbering -/

section Renumbering

section

variable (f : ℕ → ℕ)

/-- The key under another numbering. -/
def CanonicalKey.rename (key : CanonicalKey) : CanonicalKey :=
  { key with child := key.child.map f }

theorem CanonicalKey.new_rename (lead : List ℕ) (child : Option ℕ) (childLen : ℕ) :
    CanonicalKey.new lead (child.map f) childLen
      = (CanonicalKey.new lead child childLen).map (CanonicalKey.rename f) := by
  unfold CanonicalKey.new
  dsimp only
  rw [isSome_map]
  generalize lead.length + (if child.isSome = true then 4 + childLen else 0) = encodedLen
  split <;> rfl

theorem keyChild_rename (kind : TypeKind) : keyChild (kind.rename f) = (keyChild kind).map f := by
  cases kind <;> rfl

theorem keyLead_rename (kind : TypeKind) : keyLead (kind.rename f) = keyLead kind := by
  cases kind <;> rfl

theorem keyError_rename (node : TypeNode) : keyError (node.rename f) = keyError node := by
  obtain ⟨id, span, kind⟩ := node
  cases kind <;> rfl

end

variable {σ : Equiv.Perm ℕ} {graph graph' : Graph} {keys keys' : List CanonicalKey}

/-- The keys under another numbering. -/
def RenamedKeys (σ : Equiv.Perm ℕ) (keys keys' : List CanonicalKey) : Prop :=
  ∀ i, keys'[σ i]? = keys[i]?.map (CanonicalKey.rename σ)

theorem localKey_renumber (h : Renumbers σ graph graph') (hkeys : RenamedKeys σ keys keys')
    (i : ℕ) : localKey graph' (fun j => keys'[j]?) (σ i)
      = (localKey graph (fun j => keys[j]?) i).map (CanonicalKey.rename σ) := by
  unfold localKey
  rw [h.types]
  cases graph.types[i]? with
  | none => rfl
  | some node =>
    simp only [map_some, bind_some, keyError_rename, TypeNode.rename_kind,
      keyChild_rename, keyLead_rename]
    cases keyError node with
    | some error => rfl
    | none =>
      cases keyChild node.kind with
      | none => exact CanonicalKey.new_rename σ _ none 0
      | some child =>
        simp only [map_some]
        rw [hkeys]
        cases keys[child]? with
        | none => rfl
        | some key => exact CanonicalKey.new_rename σ _ (some child) _

/-- A graph under another numbering has keys when the graph has them: the same keys. -/
theorem Keyed.renumber (hkeyed : Keyed graph keys) (h : Renumbers σ graph graph') :
    ∃ keys', Keyed graph' keys' ∧ RenamedKeys σ keys keys' := by
  let keys' := (List.range graph.types.length).map fun j =>
    ((keys[σ.symm j]?).map (CanonicalKey.rename σ)).getD ⟨[], none, 0⟩
  have hlength : keys'.length = graph.types.length := by simp [keys']
  have hrenamed : RenamedKeys σ keys keys' := by
    intro i
    by_cases hi : i < graph.types.length
    · have hσ : σ i < graph.types.length := (h.lt_iff i).mpr hi
      have hkey : i < keys.length := hkeyed.length_eq ▸ hi
      simp [keys', hσ, hkey]
    · have hσ : ¬σ i < graph.types.length := fun hσ => hi ((h.lt_iff i).mp hσ)
      rw [getElem?_eq_none (by omega), getElem?_eq_none (by rw [hkeyed.length_eq]; omega)]
      rfl
  refine ⟨keys', ⟨hlength.trans h.length_eq.symm, fun i hi => ?_⟩, hrenamed⟩
  have hi' : σ.symm i < graph.types.length := by
    rw [← h.lt_iff, Equiv.apply_symm_apply, ← h.length_eq]
    exact hi
  have hlocal := localKey_renumber h hrenamed (σ.symm i)
  rw [hkeyed.eq _ hi', ← hrenamed, Equiv.apply_symm_apply] at hlocal
  exact hlocal

theorem flattenKey_renumber (hkeys : RenamedKeys σ keys keys') (rounds i : ℕ) :
    flattenKey keys' rounds (σ i) = flattenKey keys rounds i := by
  induction rounds generalizing i with
  | zero => rfl
  | succ rounds ih =>
    unfold flattenKey
    rw [hkeys]
    cases keys[i]? with
    | none => rfl
    | some key =>
      obtain ⟨lead, child, encodedLen⟩ := key
      simp only [map_some, CanonicalKey.rename]
      cases child with
      | none => rfl
      | some child =>
        simp only [map_some]
        rw [hkeys]
        cases keys[child]? with
        | none => rfl
        | some childKey =>
          simp only [map_some]
          rw [ih]
          rfl

/-- A key has the same bytes under every numbering. -/
theorem keyBytes_renumber (hkeys : RenamedKeys σ keys keys') (i : ℕ) :
    keyBytes keys' (σ i) = keyBytes keys i := by
  unfold keyBytes
  rw [flattenKey_renumber hkeys, hkeys]
  cases keys[i]? <;> rfl

end Renumbering

end Zryna.Layout.Aggregate
