import Mathlib.Order.Nat
import Zryna.Foundation.Marking

/-!
# Saturating marks in rounds

Implications between the nodes `0 ..< n` of a table of marks: once `p` is marked, so is `c`. A
round goes through the list of implications in order, where a mark counts for the implications
after the one that placed it, and it says whether it placed any. Rounds are repeated until one
places none.

The table ends with exactly the nodes that are `Reached` from the marks of the beginning, through
nodes of the table (`getD_saturate`). The order of the implications affects the number of rounds
only.
-/

namespace Zryna

open List

/-- Marks a node of the table, and says whether it was unmarked. -/
def mark (marks : List Bool) (v : ℕ) : List Bool × Bool :=
  match marks[v]? with
  | none => (marks, false)
  | some marked => (marks.set v true, !marked)

/-- Applies one implication. -/
def fire (state : List Bool × Bool) (rule : ℕ × ℕ) : List Bool × Bool :=
  if state.1.getD rule.1 false = true then
    ((mark state.1 rule.2).1, state.2 || (mark state.1 rule.2).2)
  else state

/-- One round. -/
def sweep (rules : List (ℕ × ℕ)) (marks : List Bool) : List Bool × Bool :=
  rules.foldl fire (marks, false)

/-- What a node implies. -/
def consequences (rules : List (ℕ × ℕ)) (u : ℕ) : List ℕ :=
  (rules.filter fun rule => rule.1 = u).map Prod.snd

variable {marks : List Bool} {rules : List (ℕ × ℕ)} {u v : ℕ}

@[simp] theorem mem_consequences : v ∈ consequences rules u ↔ (u, v) ∈ rules := by
  simp [consequences]

/-! ### One mark -/

theorem getD_eq_true : marks.getD v false = true ↔ marks[v]? = some true := by
  rw [getD_eq_getElem?_getD]
  cases marks[v]? <;> simp

@[simp] theorem length_mark : (mark marks v).1.length = marks.length := by
  unfold mark
  cases marks[v]? <;> simp

theorem getD_mark : (mark marks v).1.getD u false = true
    ↔ marks.getD u false = true ∨ u = v ∧ v < marks.length := by
  unfold mark
  cases hv : marks[v]? with
  | none =>
    have hlen : marks.length ≤ v := getElem?_eq_none_iff.mp hv
    simp [Nat.not_lt.mpr hlen]
  | some marked =>
    have hlt := (List.getElem?_eq_some_iff.mp hv).1
    simp only [getD_eq_true, getElem?_set_true hlt, hlt, and_true]
    exact or_comm

/-- A mark that changes nothing. -/
theorem mark_unchanged (h : (mark marks v).2 = false) :
    (mark marks v).1 = marks ∧ (v < marks.length → marks.getD v false = true) := by
  unfold mark at h ⊢
  cases hv : marks[v]? with
  | none => exact ⟨rfl, fun hlt => absurd (getElem?_eq_none_iff.mp hv) (Nat.not_le.mpr hlt)⟩
  | some marked =>
    rw [hv] at h
    obtain rfl : marked = true := by simpa using h
    obtain ⟨hlt, hget⟩ := List.getElem?_eq_some_iff.mp hv
    refine ⟨?_, fun _ => getD_eq_true.mpr hv⟩
    calc marks.set v true = marks.set v marks[v] := by rw [hget]
      _ = marks := set_getElem_self hlt

/-- A new mark leaves fewer nodes to mark. -/
theorem count_mark (marks : List Bool) (v : ℕ) :
    (mark marks v).1.count false + (mark marks v).2.toNat = marks.count false := by
  cases hc : (mark marks v).2 with
  | false =>
    rw [(mark_unchanged hc).1]
    rfl
  | true =>
    unfold mark at hc ⊢
    cases hv : marks[v]? with
    | none => simp [hv] at hc
    | some marked =>
      rw [hv] at hc
      obtain rfl : marked = false := by simpa using hc
      exact count_set_true hv

/-- Marks several nodes. -/
def markAll (marks : List Bool) (vs : List ℕ) : List Bool :=
  vs.foldl (fun marks v => (mark marks v).1) marks

@[simp] theorem length_markAll (vs : List ℕ) : (markAll marks vs).length = marks.length := by
  induction vs generalizing marks with
  | nil => rfl
  | cons v vs ih => exact ih.trans length_mark

theorem getD_markAll (vs : List ℕ) : (markAll marks vs).getD u false = true
    ↔ marks.getD u false = true ∨ u ∈ vs ∧ u < marks.length := by
  induction vs generalizing marks with
  | nil => simp [markAll]
  | cons v vs ih =>
    have hcons : markAll marks (v :: vs) = markAll (mark marks v).1 vs := rfl
    rw [hcons, ih, getD_mark, length_mark, mem_cons]
    grind

/-! ### One round -/

@[simp] theorem length_foldl_fire (rules : List (ℕ × ℕ)) (state : List Bool × Bool) :
    (rules.foldl fire state).1.length = state.1.length := by
  induction rules generalizing state with
  | nil => rfl
  | cons rule rules ih =>
    rw [foldl_cons, ih]
    unfold fire
    split
    · exact length_mark
    · rfl

theorem foldl_fire_changed (rules : List (ℕ × ℕ)) (marks : List Bool) :
    (rules.foldl fire (marks, true)).2 = true := by
  induction rules generalizing marks with
  | nil => rfl
  | cons rule rules ih =>
    rw [foldl_cons]
    have hfire : (fire (marks, true) rule).2 = true := by
      unfold fire
      split <;> simp
    exact (show fire (marks, true) rule = (_, true) from Prod.ext rfl hfire) ▸ ih _

/-- A round that places no mark finds every implication satisfied. -/
theorem foldl_fire_unchanged (h : (rules.foldl fire (marks, false)).2 = false) :
    (rules.foldl fire (marks, false)).1 = marks ∧ ∀ rule ∈ rules,
      marks.getD rule.1 false = true → rule.2 < marks.length → marks.getD rule.2 false = true := by
  induction rules with
  | nil => simp
  | cons rule rules ih =>
    rw [foldl_cons] at h ⊢
    -- this implication placed no mark, for the round would have kept that
    have hsecond : (fire (marks, false) rule).2 = false := by
      by_contra hne
      have hfire : fire (marks, false) rule = ((fire (marks, false) rule).1, true) :=
        Prod.ext rfl (by simpa using hne)
      rw [hfire, foldl_fire_changed] at h
      cases h
    have hrule : fire (marks, false) rule = (marks, false)
        ∧ (marks.getD rule.1 false = true → rule.2 < marks.length →
          marks.getD rule.2 false = true) := by
      unfold fire at hsecond ⊢
      split at hsecond
      · next hp =>
        rw [if_pos hp]
        obtain ⟨hsame, hmarked⟩ := mark_unchanged ((Bool.false_or _).symm.trans hsecond)
        exact ⟨Prod.ext hsame hsecond, fun _ => hmarked⟩
      · next hp =>
        rw [if_neg hp]
        exact ⟨rfl, fun hmark => absurd hmark hp⟩
    rw [hrule.1] at h ⊢
    obtain ⟨hsame, hrest⟩ := ih h
    exact ⟨hsame, forall_mem_cons.mpr ⟨hrule.2, hrest⟩⟩

theorem count_foldl_fire (rules : List (ℕ × ℕ)) (state : List Bool × Bool) :
    (rules.foldl fire state).1.count false + (rules.foldl fire state).2.toNat
      ≤ state.1.count false + state.2.toNat := by
  induction rules generalizing state with
  | nil => exact le_rfl
  | cons rule rules ih =>
    rw [foldl_cons]
    refine (ih _).trans ?_
    unfold fire
    split
    · have hcount := count_mark state.1 rule.2
      have hor : (state.2 || (mark state.1 rule.2).2).toNat
          ≤ state.2.toNat + (mark state.1 rule.2).2.toNat := by
        cases state.2 <;> cases (mark state.1 rule.2).2 <;> decide
      dsimp only
      omega
    · exact le_rfl

/-- Marks are placed on nodes of a set that holds the marked nodes and is closed under the
implications. -/
theorem foldl_fire_sound {P : ℕ → Prop} {state : List Bool × Bool}
    (hmarks : ∀ x, state.1.getD x false = true → P x)
    (hrules : ∀ rule ∈ rules, P rule.1 → rule.2 < state.1.length → P rule.2) :
    ∀ x, (rules.foldl fire state).1.getD x false = true → P x := by
  induction rules generalizing state with
  | nil => exact hmarks
  | cons rule rules ih =>
    obtain ⟨hrule, hrules⟩ := forall_mem_cons.mp hrules
    rw [foldl_cons]
    have hlen : (fire state rule).1.length = state.1.length :=
      length_foldl_fire [rule] state
    refine ih (fun x hx => ?_) fun r hr hp hlt => hrules r hr hp (hlen ▸ hlt)
    unfold fire at hx
    split at hx
    · next hp =>
      obtain hx | ⟨rfl, hlt⟩ := getD_mark.mp hx
      · exact hmarks x hx
      · exact hrule (hmarks _ hp) hlt
    · exact hmarks x hx

theorem foldl_fire_mono (rules : List (ℕ × ℕ)) {state : List Bool × Bool} {x : ℕ}
    (hx : state.1.getD x false = true) : (rules.foldl fire state).1.getD x false = true := by
  induction rules generalizing state with
  | nil => exact hx
  | cons rule rules ih =>
    rw [foldl_cons]
    refine ih ?_
    unfold fire
    split
    · exact getD_mark.mpr (.inl hx)
    · exact hx

/-! ### The loop -/

theorem count_sweep_lt (h : (sweep rules marks).2 = true) :
    (sweep rules marks).1.count false < marks.count false := by
  have hle := count_foldl_fire rules (marks, false)
  rw [show rules.foldl fire (marks, false) = sweep rules marks from rfl, h] at hle
  exact Nat.lt_of_succ_le (by simpa using hle)

/-- Rounds until nothing changes. A round that changes the table marks a node. -/
def saturate (rules : List (ℕ × ℕ)) (marks : List Bool) : List Bool :=
  if (sweep rules marks).2 = true then saturate rules (sweep rules marks).1
  else (sweep rules marks).1
termination_by marks.count false
decreasing_by exact count_sweep_lt ‹_›

variable (rules : List (ℕ × ℕ)) (marks : List Bool)

/-- The table at the end is closed under the implications. -/
theorem saturate_closed :
    ∀ rule ∈ rules, (saturate rules marks).getD rule.1 false = true → rule.2 < marks.length →
      (saturate rules marks).getD rule.2 false = true := by
  fun_induction saturate rules marks with
  | case1 marks h ih =>
    intro rule hrule hp hlt
    exact ih rule hrule hp (hlt.trans_eq (length_foldl_fire rules (marks, false)).symm)
  | case2 marks h =>
    obtain ⟨hsame, hclosed⟩ := foldl_fire_unchanged (by simpa [sweep] using h)
    intro rule hrule hp hlt
    rw [sweep, hsame] at hp ⊢
    exact hclosed rule hrule hp hlt

theorem getD_saturate (v : ℕ) :
    (saturate rules marks).getD v false = true
      ↔ Reached (consequences rules) marks.length (fun u => marks.getD u false = true) v := by
  constructor
  · -- every table on the way holds reached nodes only
    suffices hsound : ∀ P : ℕ → Prop, (∀ x, marks.getD x false = true → P x) →
        (∀ rule ∈ rules, P rule.1 → rule.2 < marks.length → P rule.2) →
        ∀ x, (saturate rules marks).getD x false = true → P x by
      refine hsound _ (fun x hx => .seed hx ?_) (fun rule hrule hp hlt =>
        .child hp (mem_consequences.mpr hrule) hlt) v
      exact (List.getElem?_eq_some_iff.mp (getD_eq_true.mp hx)).1
    intro P hmarks hrules
    fun_induction saturate rules marks with
    | case1 marks h ih =>
      refine ih (foldl_fire_sound hmarks hrules) fun rule hrule hp hlt => hrules rule hrule hp ?_
      exact hlt.trans_eq (length_foldl_fire rules (marks, false))
    | case2 marks h => exact foldl_fire_sound hmarks hrules
  · intro hv
    induction hv with
    | seed hv hlt =>
      clear hlt
      fun_induction saturate rules marks with
      | case1 marks h ih => exact ih (foldl_fire_mono rules hv)
      | case2 marks h => exact foldl_fire_mono rules hv
    | child hu hv hlt ih =>
      exact saturate_closed rules marks _ (mem_consequences.mp hv) ih hlt

end Zryna
