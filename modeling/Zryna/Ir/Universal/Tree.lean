import Zryna.Ir.Universal.Verify

/-!
# The expression tree of a verified function

An accepted arena is the postorder listing of one tree. `Denotes arena i tree` reads the tree
under expression `i` off the operand identifiers. `Spans arena lo i tree` says more: the tree under
`i` occupies exactly the indices `lo..i`, each operand a contiguous part of it.

`spans_of_clean` derives the second from a clean run of the verifier. The walk leaves expressions
in the order `0, 1, 2, …`, so the expressions already left are always those below the index
expected next. What could go wrong is an operand that was left earlier, as part of another
subtree; it would be skipped. The owner counts exclude this: an expression below the expected
index has its only owner below it too, or above everything that is still being walked
(`OwnersOutside`).
-/

namespace Zryna.Ir.Universal

open Report List

/-! ### Trees -/

/-- Expression trees of the profile. -/
inductive Tree where
  | parameter (index : BitVec 32)
  | literal (value : I32)
  | add (lhs rhs : Tree)
deriving DecidableEq

/-- Wrapping evaluation. A parameter without an argument has no value. -/
def Tree.eval (arguments : List I32) : Tree → Option I32
  | .parameter index => arguments[index.toNat]?
  | .literal value => some value
  | .add lhs rhs => do
    let left ← lhs.eval arguments
    let right ← rhs.eval arguments
    pure (left + right)

/-- The operation at an index. -/
def kindAt (arena : List Expr) (index : ℕ) : Option ExprKind := (arena[index]?).map Expr.kind

def operands : ExprKind → List ℕ
  | .i32Add lhs rhs => [lhs, rhs]
  | _ => []

/-- The expression at `p` has `j` as an operand. -/
def Owns (arena : List Expr) (p j : ℕ) : Prop :=
  ∃ lhs rhs, kindAt arena p = some (.i32Add lhs rhs) ∧ (j = lhs ∨ j = rhs)

/-- The tree under an expression. -/
inductive Denotes (arena : List Expr) : ℕ → Tree → Prop where
  | parameter {i : ℕ} {index : BitVec 32} (h : kindAt arena i = some (.parameter index)) :
      Denotes arena i (.parameter index)
  | literal {i : ℕ} {value : I32} (h : kindAt arena i = some (.i32Literal value)) :
      Denotes arena i (.literal value)
  | add {i lhs rhs : ℕ} {left right : Tree} (h : kindAt arena i = some (.i32Add lhs rhs))
      (hl : Denotes arena lhs left) (hr : Denotes arena rhs right) :
      Denotes arena i (.add left right)

/-- The tree under `i` occupies the indices `lo..i` in postorder. -/
inductive Spans (arena : List Expr) : ℕ → ℕ → Tree → Prop where
  | parameter {i : ℕ} {index : BitVec 32} (h : kindAt arena i = some (.parameter index)) :
      Spans arena i i (.parameter index)
  | literal {i : ℕ} {value : I32} (h : kindAt arena i = some (.i32Literal value)) :
      Spans arena i i (.literal value)
  | add {lo lhs rhs : ℕ} {left right : Tree}
      (h : kindAt arena (rhs + 1) = some (.i32Add lhs rhs)) (hl : Spans arena lo lhs left)
      (hr : Spans arena (lhs + 1) rhs right) : Spans arena lo (rhs + 1) (.add left right)

namespace Spans

variable {arena : List Expr} {lo i : ℕ} {tree : Tree} (h : Spans arena lo i tree)

include h

theorem denotes : Denotes arena i tree := by
  induction h with
  | parameter h => exact .parameter h
  | literal h => exact .literal h
  | add h _ _ ihl ihr => exact .add h ihl ihr

theorem le : lo ≤ i := by
  induction h with
  | parameter h => exact Nat.le_refl _
  | literal h => exact Nat.le_refl _
  | add h _ _ ihl ihr => omega

/-- Everything below the root is owned inside the span. -/
theorem owner {j : ℕ} (hlo : lo ≤ j) (hj : j < i) : ∃ p ≤ i, Owns arena p j := by
  induction h with
  | parameter h => omega
  | literal h => omega
  | @add lo lhs rhs left right h hl hr ihl ihr =>
    have hle := hr.le
    rcases Nat.lt_trichotomy j lhs with hlt | rfl | hgt
    · obtain ⟨p, hp, howns⟩ := ihl hlo hlt
      exact ⟨p, by omega, howns⟩
    · exact ⟨rhs + 1, Nat.le_refl _, j, rhs, h, .inl rfl⟩
    · rcases Nat.lt_or_ge j rhs with hlt | hge
      · obtain ⟨p, hp, howns⟩ := ihr hgt hlt
        exact ⟨p, by omega, howns⟩
      · obtain rfl : j = rhs := by omega
        exact ⟨j + 1, Nat.le_refl _, lhs, j, h, .inr rfl⟩

end Spans

/-! ### What the arena loop establishes -/

/-- What a clean check says about the expression at an index. -/
structure EntryOk (function : Function) (index : ℕ) (kind : ExprKind) : Prop where
  parameter : ∀ i, kind = .parameter i → i.toNat < function.parameters.length
  literal : ∀ b, kind ≠ .boolLiteral b
  add : ∀ lhs rhs, kind = .i32Add lhs rhs → lhs < index ∧ rhs < index ∧ lhs ≠ rhs

variable {expression : Expr} {index : ℕ} {owners : List ℕ} {table : ExpressionTable}
  {sources : SourceMap}

theorem clean_verifyExpression {functionIndex : ℕ} {function : Function}
    {validSpan : Bool} {depths : List ℕ} (hty : expression.ty = .i32)
    (h : (verifyExpression functionIndex function index expression validSpan depths owners).Clean) :
    EntryOk function index expression.kind
      ∧ (verifyExpression functionIndex function index expression validSpan depths
        owners).value.owners = (operands expression.kind).foldl addOwner owners
      ∧ (verifyExpression functionIndex function index expression validSpan depths
        owners).value.graphValid = true := by
  unfold verifyExpression at h ⊢
  cases hkind : expression.kind with
  | parameter i =>
    simp only [hkind, clean_bind, clean_pushIf, clean_pure, and_true, ne_eq, not_not] at h
    refine ⟨⟨?_, by simp, by simp⟩, rfl, rfl⟩
    rintro _ ⟨rfl⟩
    exact (List.getElem?_eq_some_iff.mp h).1
  | boolLiteral b => simp [hkind, hty] at h
  | i32Literal value => exact ⟨⟨by simp, by simp, by simp⟩, rfl, rfl⟩
  | i32Add lhs rhs =>
    by_cases hlt : lhs < index ∧ rhs < index ∧ lhs ≠ rhs
    · obtain ⟨hl, hr, hne⟩ := hlt
      refine ⟨⟨by simp, by simp, ?_⟩, ?_, ?_⟩
      · rintro _ _ ⟨rfl, rfl⟩
        exact ⟨hl, hr, hne⟩
      · simp [predecessor, hl, hr, hne, operands]
      · simp [predecessor, hl, hr, hne]
    · exfalso
      simp only [hkind, predecessor] at h
      split at h
      · next left right hleft hright =>
        split at h
        · next hne => exact hlt ⟨by grind, by grind, hne⟩
        · simp at h
      · simp at h

theorem clean_verifyArenaEntry {functionIndex : ℕ} {function : Function} {validSpans : List Bool}
    (h : (verifyArenaEntry functionIndex function validSpans table (expression, index)).Clean) :
    EntryOk function index expression.kind
      ∧ (verifyArenaEntry functionIndex function validSpans table (expression, index)).value.owners
        = (operands expression.kind).foldl addOwner table.owners
      ∧ (verifyArenaEntry functionIndex function validSpans table
        (expression, index)).value.graphValid = table.graphValid := by
  simp only [verifyArenaEntry, clean_bind, clean_pushIf, clean_pure, and_true, Nat.not_lt,
    gt_iff_lt] at h
  obtain ⟨hty, hexpression, hdepth⟩ := h
  obtain ⟨hok, howners, hvalid⟩ := clean_verifyExpression (by simpa [profileSupports] using hty)
    hexpression
  refine ⟨hok, howners, ?_⟩
  simp only [verifyArenaEntry, value_bind, value_pure]
  rw [hvalid, decide_eq_true hdepth]
  simp

/-- The arena loop, read off a clean run. -/
theorem clean_arenaLoop {functionIndex : ℕ} {function : Function} {validSpans : List Bool}
    (entries : List (Expr × ℕ))
    (h : (entries.foldlM (verifyArenaEntry functionIndex function validSpans) table).Clean) :
    (∀ entry ∈ entries, EntryOk function entry.2 entry.1.kind)
      ∧ (entries.foldlM (verifyArenaEntry functionIndex function validSpans) table).value.owners
        = (entries.flatMap fun entry => operands entry.1.kind).foldl addOwner table.owners
      ∧ (entries.foldlM (verifyArenaEntry functionIndex function validSpans)
        table).value.graphValid = table.graphValid := by
  induction entries generalizing table with
  | nil => exact ⟨by simp, rfl, rfl⟩
  | cons entry entries ih =>
    rw [foldlM_cons, clean_bind] at h
    obtain ⟨hentry, howners, hvalid⟩ := clean_verifyArenaEntry h.1
    obtain ⟨hrest, howners', hvalid'⟩ := ih h.2
    rw [foldlM_cons, value_bind, flatMap_cons, foldl_append, howners', hvalid',
      howners, hvalid]
    refine ⟨?_, rfl, rfl⟩
    intro e he
    obtain rfl | he := mem_cons.mp he
    · exact hentry
    · exact hrest e he

/-! ### Owners -/

theorem length_foldl_addOwner (indices owners : List ℕ) :
    (indices.foldl addOwner owners).length = owners.length := by
  induction indices generalizing owners with
  | nil => rfl
  | cons index indices ih => rw [foldl_cons, ih, addOwner, length_set]

/-- The owner counts are reference counts, up to saturation. -/
theorem getD_foldl_addOwner (indices : List ℕ) {j : ℕ} (hj : j < owners.length)
    (hle : owners.getD j 0 ≤ 2 ^ 32 - 1) :
    (indices.foldl addOwner owners).getD j 0
      = min (owners.getD j 0 + indices.count j) (2 ^ 32 - 1) := by
  induction indices generalizing owners with
  | nil =>
    rw [foldl_nil, count_nil, Nat.add_zero, Nat.min_eq_left hle]
  | cons index indices ih =>
    have hset : (addOwner owners index).getD j 0
        = if index = j then saturatingAdd (owners.getD j 0) 1 else owners.getD j 0 := by
      unfold addOwner
      by_cases h : index = j
      · subst h
        simp [getD_eq_getElem?_getD, hj]
      · simp [getD_eq_getElem?_getD, h]
    rw [foldl_cons, ih (by simpa [addOwner] using hj), hset, count_cons]
    · by_cases h : index = j
      · simp only [h, if_true, saturatingAdd, beq_self_eq_true]
        omega
      · simp only [h, if_false, beq_iff_eq, Nat.add_zero]
    · rw [hset]
      split
      · exact Nat.min_le_right _ _
      · exact hle

/-- References to `j` from two positions are counted twice. -/
theorem two_le_count_flatMap {α : Type} {f : α → List ℕ} {j : ℕ} {xs : List α} {p q : ℕ} {x y : α}
    (hpq : p < q) (hx : xs[p]? = some x) (hy : xs[q]? = some y) (hjx : j ∈ f x) (hjy : j ∈ f y) :
    2 ≤ (xs.flatMap f).count j := by
  induction xs generalizing p q with
  | nil => simp at hx
  | cons z xs ih =>
    obtain ⟨q, rfl⟩ : ∃ r, q = r + 1 := ⟨q - 1, by omega⟩
    rw [getElem?_cons_succ] at hy
    rw [flatMap_cons, count_append]
    cases p with
    | zero =>
      obtain rfl : z = x := by simpa using hx
      have hhead := count_pos_iff.mpr hjx
      have htail : 0 < (xs.flatMap f).count j :=
        count_pos_iff.mpr (mem_flatMap.mpr ⟨y, mem_of_getElem? hy, hjy⟩)
      omega
    | succ p =>
      have := ih (Nat.lt_of_succ_lt_succ hpq) (by simpa using hx) hy
      omega

/-- What the arena loop and the owner search establish about a function. -/
structure ArenaOk (function : Function) : Prop where
  entry : ∀ i kind, kindAt function.expressions i = some kind → EntryOk function i kind
  owned_once : ∀ j < function.expressions.length,
    (function.expressions.flatMap (fun e => operands e.kind) ++ [function.body]).count j = 1

namespace ArenaOk

variable {function : Function} {j p : ℕ}

theorem mem_operands (h : Owns function.expressions p j) :
    ∃ expression, function.expressions[p]? = some expression ∧ j ∈ operands expression.kind := by
  obtain ⟨lhs, rhs, hkind, hj⟩ := h
  obtain ⟨expression, hget, hexpression⟩ := Option.map_eq_some_iff.mp hkind
  exact ⟨expression, hget, by simpa [hexpression, operands] using hj⟩

theorem owns_lt (h : ArenaOk function) (howns : Owns function.expressions p j) : j < p := by
  obtain ⟨lhs, rhs, hkind, rfl | rfl⟩ := howns
  · exact ((h.entry p _ hkind).add _ _ rfl).1
  · exact ((h.entry p _ hkind).add _ _ rfl).2.1

theorem lt_length (howns : Owns function.expressions p j) : p < function.expressions.length := by
  obtain ⟨expression, hget, -⟩ := mem_operands howns
  exact (List.getElem?_eq_some_iff.mp hget).1

theorem owner_unique (h : ArenaOk function) {q : ℕ} (hp : Owns function.expressions p j)
    (hq : Owns function.expressions q j) : p = q := by
  have hj : j < function.expressions.length := Nat.lt_trans (h.owns_lt hp) (lt_length hp)
  have hone := h.owned_once j hj
  rw [count_append] at hone
  obtain ⟨x, hx, hjx⟩ := mem_operands hp
  obtain ⟨y, hy, hjy⟩ := mem_operands hq
  rcases Nat.lt_trichotomy p q with hlt | rfl | hgt
  · have := two_le_count_flatMap (f := fun e : Expr => operands e.kind) hlt hx hy hjx hjy
    omega
  · rfl
  · have := two_le_count_flatMap (f := fun e : Expr => operands e.kind) hgt hy hx hjy hjx
    omega

/-- Nothing comes after the last expression, so only the function can own it. -/
theorem body_last (h : ArenaOk function) (hpos : 0 < function.expressions.length) :
    function.body + 1 = function.expressions.length := by
  have hlast := h.owned_once (function.expressions.length - 1) (by omega)
  have hnone : (function.expressions.flatMap fun e => operands e.kind).count
      (function.expressions.length - 1) = 0 := by
    rw [count_eq_zero]
    intro hmem
    obtain ⟨expression, hexpression, hin⟩ := mem_flatMap.mp hmem
    obtain ⟨p, hget⟩ := mem_iff_getElem?.mp hexpression
    have hkind : kindAt function.expressions p = some expression.kind := by simp [kindAt, hget]
    have howns : Owns function.expressions p (function.expressions.length - 1) := by
      cases hk : expression.kind with
      | i32Add lhs rhs =>
        exact ⟨lhs, rhs, hkind.trans (by rw [hk]), by simpa [hk, operands] using hin⟩
      | _ => simp [hk, operands] at hin
    have := h.owns_lt howns
    have := lt_length howns
    omega
  rw [count_append, hnone, Nat.zero_add, count_singleton] at hlast
  have : function.body = function.expressions.length - 1 := by
    by_contra hne
    simp [hne] at hlast
  omega

end ArenaOk

/-! ### The walk -/

/-- The owner of an expression below `lo` is below `lo` as well, or above `i`. -/
def OwnersOutside (arena : List Expr) (lo i : ℕ) : Prop :=
  ∀ j < lo, ∀ p, Owns arena p j → p < lo ∨ i < p

/-- The expressions that have been left are those below `expected`. -/
def EmittedBelow (emitted : List Bool) (count expected : ℕ) : Prop :=
  emitted.length = count ∧ ∀ j < count, emitted.getD j false = decide (j < expected)

theorem EmittedBelow.fresh {emitted : List Bool} {count expected i : ℕ}
    (h : EmittedBelow emitted count expected) (hi : i < count) (hle : expected ≤ i) :
    ¬emitted.getD i false = true := by
  rw [h.2 i hi, decide_eq_true_eq]
  exact Nat.not_lt.mpr hle

theorem EmittedBelow.set {emitted : List Bool} {count expected : ℕ}
    (h : EmittedBelow emitted count expected) (hlt : expected < count) :
    EmittedBelow (emitted.set expected true) count (expected + 1) := by
  refine ⟨by rw [length_set, h.1], fun j hj => ?_⟩
  have hj' := h.2 j hj
  rw [getD_eq_getElem?_getD] at hj' ⊢
  by_cases hje : expected = j
  · subst hje
    simp [h.1, hlt]
  · rw [getElem?_set_ne hje, hj']
    congr 1
    rw [eq_iff_iff]
    omega

section Walk

variable {functionIndex : ℕ} {function : Function} {validSpans : List Bool}
  {emitted : List Bool} {i lo rounds : ℕ} {stack : List (ℕ × Bool)}

/-- Leaving an expression in a clean walk: it was the expected one. -/
theorem clean_leave (hi : i < function.expressions.length)
    (hemitted : EmittedBelow emitted function.expressions.length lo) (hlo : lo ≤ i)
    (h : (postorderLoop functionIndex function validSpans (rounds + 1) ((i, true) :: stack) emitted
      lo).Clean) :
    i = lo ∧ (postorderLoop functionIndex function validSpans rounds stack (emitted.set i true)
      (lo + 1)).Clean := by
  change Clean (if emitted.getD i false then _ else if i ≠ lo then _ else _) at h
  rw [if_neg (hemitted.fresh hi hlo)] at h
  by_cases hne : i = lo
  · rw [if_neg (not_not.mpr hne)] at h
    exact ⟨hne, h⟩
  · rw [if_pos hne, getElem?_eq_getElem hi] at h
    exact absurd h (not_clean_push _)

/-- Entering an expression: its operands are walked before it is left. -/
theorem enter {kind : ExprKind} (hkind : kindAt function.expressions i = some kind)
    (hoperands : ∀ j ∈ operands kind, j < i) (hi : i < function.expressions.length)
    (hemitted : EmittedBelow emitted function.expressions.length lo) (hlo : lo ≤ i) :
    postorderLoop functionIndex function validSpans (rounds + 1) ((i, false) :: stack) emitted lo
      = postorderLoop functionIndex function validSpans rounds
        ((operands kind).map (·, false) ++ (i, true) :: stack) emitted lo := by
  refine (if_neg (hemitted.fresh hi hlo)).trans ?_
  unfold kindAt at hkind
  rw [hkind]
  cases kind with
  | i32Add lhs rhs =>
    simp only [operands, forall_mem_cons] at hoperands
    simp [predecessor, operands, hoperands]
  | _ => rfl

/-- **The walk.** In a clean walk, the subtree under `i` takes up the indices from the expected one
to `i`, and two rounds for each of them. -/
theorem walk (harena : ArenaOk function) (i : ℕ) :
    ∀ {lo rounds : ℕ} {stack : List (ℕ × Bool)} {emitted : List Bool}, lo ≤ i →
      i < function.expressions.length → OwnersOutside function.expressions lo i →
      EmittedBelow emitted function.expressions.length lo → 2 * (i + 1 - lo) ≤ rounds →
      (postorderLoop functionIndex function validSpans rounds ((i, false) :: stack) emitted
        lo).Clean →
      ∃ tree emitted', Spans function.expressions lo i tree
        ∧ EmittedBelow emitted' function.expressions.length (i + 1)
        ∧ (postorderLoop functionIndex function validSpans (rounds - 2 * (i + 1 - lo)) stack
          emitted' (i + 1)).Clean := by
  induction i using Nat.strongRecOn with
  | ind i ih =>
    intro lo rounds stack emitted hlo hi houtside hemitted hrounds h
    obtain ⟨rounds, rfl⟩ : ∃ r, rounds = r + 2 := ⟨rounds - 2, by omega⟩
    obtain ⟨kind, hkind⟩ : ∃ kind, kindAt function.expressions i = some kind :=
      ⟨function.expressions[i].kind, by simp [kindAt, hi]⟩
    have hentry := harena.entry i kind hkind
    -- a leaf is left at once, so it is the expected expression
    have hleaf : ∀ tree, operands kind = [] → Spans function.expressions i i tree →
        ∃ tree emitted', Spans function.expressions lo i tree
          ∧ EmittedBelow emitted' function.expressions.length (i + 1)
          ∧ (postorderLoop functionIndex function validSpans (rounds + 2 - 2 * (i + 1 - lo)) stack
            emitted' (i + 1)).Clean := by
      intro tree hnone hspans
      rw [enter hkind (by simp [hnone]) hi hemitted hlo, hnone] at h
      obtain ⟨rfl, h⟩ := clean_leave hi hemitted hlo h
      refine ⟨tree, _, hspans, hemitted.set hi, ?_⟩
      rwa [show rounds + 2 - 2 * (i + 1 - i) = rounds from by omega]
    cases kind with
    | parameter index => exact hleaf _ rfl (.parameter hkind)
    | i32Literal value => exact hleaf _ rfl (.literal hkind)
    | boolLiteral b => exact absurd rfl (hentry.literal b)
    | i32Add lhs rhs =>
      obtain ⟨hl, hr, hne⟩ := hentry.add lhs rhs rfl
      have hownsl : Owns function.expressions i lhs := ⟨lhs, rhs, hkind, .inl rfl⟩
      have hownsr : Owns function.expressions i rhs := ⟨lhs, rhs, hkind, .inr rfl⟩
      rw [enter hkind (by simp [operands, hl, hr]) hi hemitted hlo] at h
      -- the left operand has not been left: its owner is the expression being walked
      have hlol : lo ≤ lhs := by
        by_contra hlt
        have := houtside lhs (by omega) i hownsl
        omega
      obtain ⟨left, emitted, hleft, hemitted, h⟩ := ih lhs hl hlol (by omega)
        (fun j hj p hp => (houtside j hj p hp).imp_right fun hlt => by omega) hemitted (by omega) h
      -- nor has the right operand: inside the left subtree its owner would lie there
      have hinside : ∀ j < lhs, ∀ p, Owns function.expressions p j → p ≤ lhs ∨ i < p := by
        intro j hj p hp
        rcases Nat.lt_or_ge j lo with hlt | hge
        · exact (houtside j hlt p hp).imp_left fun h => by omega
        · obtain ⟨q, hq, howns⟩ := hleft.owner hge hj
          rw [harena.owner_unique hp howns]
          exact .inl hq
      have hlor : lhs + 1 ≤ rhs := by
        by_contra hlt
        have := hinside rhs (by omega) i hownsr
        omega
      have houtside' : OwnersOutside function.expressions (lhs + 1) rhs := by
        intro j hj p hp
        rcases Nat.lt_or_ge j lhs with hlt | hge
        · have := hinside j hlt p hp
          omega
        · obtain rfl : j = lhs := by omega
          rw [harena.owner_unique hp hownsl]
          exact .inr hr
      obtain ⟨right, emitted, hright, hemitted, h⟩ := ih rhs hr hlor (by omega) houtside'
        hemitted (by omega) h
      obtain ⟨remaining, hremaining⟩ : ∃ r, rounds + 1 - 2 * (lhs + 1 - lo)
          - 2 * (rhs + 1 - (lhs + 1)) = r + 1 := ⟨rounds - 2 * (lhs + 1 - lo)
            - 2 * (rhs + 1 - (lhs + 1)), by omega⟩
      rw [hremaining] at h
      obtain ⟨rfl, h⟩ := clean_leave hi hemitted (by omega) h
      refine ⟨.add left right, _, .add hkind hleft hright, hemitted.set hi, ?_⟩
      rwa [show rounds + 2 - 2 * (rhs + 1 + 1 - lo) = remaining from by omega]

end Walk

/-! ### Verified functions -/

/-- What a clean check of all expressions establishes. -/
theorem clean_verifyExpressions {functionIndex : ℕ} {function : Function} {validSpans : List Bool}
    (h : (verifyExpressions functionIndex function validSpans (some function.body)).Clean) :
    ArenaOk function
      ∧ (verifyCanonicalPostorder functionIndex function function.body validSpans).Clean := by
  unfold verifyExpressions at h
  rw [clean_bind] at h
  obtain ⟨hloop, h⟩ := h
  obtain ⟨hentries, howners, hvalid⟩ := clean_arenaLoop _ hloop
  dsimp only at h
  rw [hvalid, if_pos rfl, howners] at h
  dsimp only at h
  -- the owner counts searched by the check, as one fold over all references
  have hfold : addOwner ((function.expressions.zipIdx.flatMap fun entry =>
      operands entry.1.kind).foldl addOwner (List.replicate function.expressions.length 0))
      function.body = (function.expressions.flatMap (fun e => operands e.kind)
        ++ [function.body]).foldl addOwner (List.replicate function.expressions.length 0) := by
    rw [foldl_append, foldl_cons, foldl_nil,
      ← flatMap_map (f := Prod.fst) (g := fun e : Expr => operands e.kind),
      zipIdx_map_fst]
  rw [hfold] at h
  generalize hreferences : function.expressions.flatMap (fun e => operands e.kind)
    ++ [function.body] = references at h
  split at h
  · next ownerCount expressionIndex hfind =>
    exfalso
    have hmem := mem_of_find?_eq_some hfind
    have hlt : expressionIndex < function.expressions.length := by
      have := (mem_zipIdx_iff_getElem?.mp hmem)
      have := (List.getElem?_eq_some_iff.mp this).1
      rwa [length_foldl_addOwner, length_replicate] at this
    rw [getElem?_eq_getElem hlt] at h
    exact not_clean_push _ h
  · next hfind =>
    refine ⟨⟨fun i kind hkind => ?_, fun j hj => ?_⟩, h⟩
    · obtain ⟨expression, hget, rfl⟩ := Option.map_eq_some_iff.mp hkind
      exact hentries (expression, i) (mem_zipIdx_iff_getElem?.mpr hget)
    · have hlength : j < (List.replicate function.expressions.length 0).length := by simpa using hj
      have hcount := getD_foldl_addOwner references hlength
        (by simp [getD_eq_getElem?_getD, hj])
      have hone : (references.foldl addOwner
          (List.replicate function.expressions.length 0)).getD j 0 = 1 := by
        have hlt : j < (references.foldl addOwner
            (List.replicate function.expressions.length 0)).length := by
          rwa [length_foldl_addOwner, length_replicate]
        have := find?_eq_none.mp hfind
          ((references.foldl addOwner (List.replicate function.expressions.length 0))[j], j)
          (mem_zipIdx_iff_getElem?.mpr (getElem?_eq_getElem hlt))
        rw [getD_eq_getElem?_getD, getElem?_eq_getElem hlt]
        simpa using this
      rw [hone] at hcount
      rw [hreferences]
      have hzero : (List.replicate function.expressions.length 0).getD j 0 = 0 := by
        simp [getD_eq_getElem?_getD, hj]
      omega

/-- **The arena of a checked function lists one tree in postorder.** -/
theorem spans_of_clean {functionIndex : ℕ} {function : Function} {validSpans : List Bool}
    (hbody : function.body < function.expressions.length)
    (h : (verifyExpressions functionIndex function validSpans (some function.body)).Clean) :
    ArenaOk function ∧ function.body + 1 = function.expressions.length
      ∧ ∃ tree, Spans function.expressions 0 function.body tree := by
  obtain ⟨harena, hwalk⟩ := clean_verifyExpressions h
  have hlast := harena.body_last (by omega)
  refine ⟨harena, hlast, ?_⟩
  have hemitted : EmittedBelow (List.replicate function.expressions.length false)
      function.expressions.length 0 := by
    refine ⟨length_replicate, fun j hj => ?_⟩
    simp [getD_eq_getElem?_getD, hj]
  obtain ⟨tree, -, hspans, -, -⟩ := walk harena function.body (Nat.zero_le _) hbody
    (fun j hj => absurd hj (Nat.not_lt_zero j)) hemitted (by omega) hwalk
  exact ⟨tree, hspans⟩

/-- What verification establishes about each function of a program. -/
structure FunctionOk (function : Function) : Prop where
  arena : ArenaOk function
  body_last : function.body + 1 = function.expressions.length
  tree : ∃ tree, Spans function.expressions 0 function.body tree

theorem functionOk_of_clean {function : Function} {functionIndex : ℕ}
    (h : (verifyFunction sources (function, functionIndex)).Clean) : FunctionOk function := by
  simp only [verifyFunction, clean_bind] at h
  obtain ⟨-, -, -, h⟩ := h
  split at h
  · simp at h
  · next body hget =>
    rw [clean_bind] at h
    have hbody := (List.getElem?_eq_some_iff.mp hget).1
    obtain ⟨harena, hlast, htree⟩ := spans_of_clean hbody h.2
    exact ⟨harena, hlast, htree⟩

theorem functionOk_of_verify {program : Program} {verified : VerifiedProgram}
    (h : verify program sources = .ok verified) {view : VerifiedFunction}
    (hview : view ∈ verified.functions) : FunctionOk view.function := by
  unfold verify at h
  dsimp only at h
  split at h
  · cases h
  split at h
  · cases h
  · next hclean =>
    split at h
    · next abi habi =>
      cases h
      have hbody : (verifyBody program sources).Clean := not_not.mp hclean
      simp only [verifyBody, clean_bind, clean_forM, clean_pure, and_true] at hbody
      obtain ⟨entry, hentry, rfl⟩ := mem_map.mp hview
      obtain ⟨i, hi⟩ := mem_iff_getElem?.mp (of_mem_zip hentry).1
      exact functionOk_of_clean (hbody.2 (entry.1, i) (mem_zipIdx_iff_getElem?.mpr hi))
    · cases h

end Zryna.Ir.Universal
