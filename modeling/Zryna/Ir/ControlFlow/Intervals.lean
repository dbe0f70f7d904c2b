import Mathlib.Algebra.Order.BigOperators.Group.Finset
import Zryna.Ir.ControlFlow.Dominators

/-!
# Entry and exit times of the dominator tree

`dominatorIntervals` numbers the dominator tree depth first. The interval of a block contains the
interval of another exactly when it is an ancestor of it (`dominates_iff_anc`), so the verifier's
interval test decides ancestry.

The proof follows the tree: visiting a subtree of size `m` takes `2 * m` rounds of the loop,
advances the clock by `2 * m`, and writes only the times of that subtree. Visiting a list of
incomparable roots, one after the other, is the same statement for a forest.
-/

namespace Zryna.Ir.ControlFlow

open List

open Classical in
/-- The blocks of the subtree at `x`. -/
noncomputable def subtree (parent : ℕ → ℕ) (n x : ℕ) : Finset ℕ :=
  (Finset.range n).filter fun y => Anc parent x y

variable {idom : List ℕ} {rank : ℕ → ℕ}

theorem mem_subtree {parent : ℕ → ℕ} {n x y : ℕ} :
    y ∈ subtree parent n x ↔ y < n ∧ Anc parent x y := by
  simp [subtree]

theorem dominatorChildren_at {x : ℕ} (hx : x < idom.length) :
    (dominatorChildren idom).at x = (List.range idom.length).filter
      fun block => block ≠ 0 && idom[block]? == some x := by
  simp [Adjacency.at, dominatorChildren, getD_eq_getElem?_getD, hx]

theorem mem_dominatorChildren {x c : ℕ} :
    c ∈ (dominatorChildren idom).at x ↔
      x < idom.length ∧ c < idom.length ∧ c ≠ 0 ∧ idomParent idom c = x := by
  by_cases hx : x < idom.length
  · rw [dominatorChildren_at hx, mem_filter, mem_range]
    constructor
    · rintro ⟨hc, h⟩
      simp only [Bool.and_eq_true, decide_eq_true_eq, beq_iff_eq] at h
      refine ⟨hx, hc, h.1, ?_⟩
      rw [idomParent, h.2, Option.getD_some]
    · rintro ⟨-, hc, h0, h⟩
      refine ⟨hc, ?_⟩
      rw [idomParent, getElem?_eq_getElem hc, Option.getD_some] at h
      simp [h0, getElem?_eq_getElem hc, h]
  · have hat : (dominatorChildren idom).at x = [] :=
      Adjacency.at_eq_nil (by simpa [dominatorChildren] using hx)
    simp [hat, hx]

theorem nodup_dominatorChildren (x : ℕ) : ((dominatorChildren idom).at x).Nodup := by
  by_cases hx : x < idom.length
  · rw [dominatorChildren_at hx]
    exact nodup_range.filter _
  · rw [Adjacency.at_eq_nil (by simpa [dominatorChildren] using hx)]
    exact nodup_nil

section Tree

variable (t : ParentTree (· < idom.length) (idomParent idom) rank)
include t

/-- A proper descendant lies below a child. -/
theorem exists_child_of_anc {x y : ℕ} (hy : y < idom.length) (h : Anc (idomParent idom) x y)
    (hne : x ≠ y) : ∃ c ∈ (dominatorChildren idom).at x, Anc (idomParent idom) c y := by
  induction hn : rank y using Nat.strong_induction_on generalizing y with
  | _ n ih =>
    have h' := h.cases_parent.resolve_left hne
    have h0 : y ≠ 0 := by
      rintro rfl
      exact hne (t.anc_root.mp h)
    have hp := t.parent_mem y hy h0
    by_cases hx : x = idomParent idom y
    · exact ⟨y, mem_dominatorChildren.mpr ⟨hx ▸ hp, hy, h0, hx.symm⟩, Anc.refl _⟩
    · obtain ⟨c, hc, hcy⟩ := ih _ (hn ▸ t.rank_lt y hy h0) hp h' hx rfl
      exact ⟨c, hc, hcy.step⟩

theorem not_anc_of_siblings {x a b : ℕ} (ha : a ∈ (dominatorChildren idom).at x)
    (hb : b ∈ (dominatorChildren idom).at x) (hne : a ≠ b) : ¬ Anc (idomParent idom) a b := by
  intro h
  rw [mem_dominatorChildren] at ha hb
  obtain ⟨-, hal, ha0, hax⟩ := ha
  obtain ⟨-, -, -, hbx⟩ := hb
  have h' := h.cases_parent.resolve_left hne
  rw [hbx, ← hax] at h'
  -- `a` above its own parent contradicts the rank
  have h1 := t.rank_le_of_anc (t.parent_mem a hal ha0) h'
  have h2 := t.rank_lt a hal ha0
  omega

theorem subtree_eq {x : ℕ} (hx : x < idom.length) :
    subtree (idomParent idom) idom.length x
      = insert x (((dominatorChildren idom).at x).toFinset.biUnion
          (subtree (idomParent idom) idom.length)) := by
  ext y
  simp only [mem_subtree, Finset.mem_insert, Finset.mem_biUnion, mem_toFinset]
  constructor
  · rintro ⟨hy, h⟩
    by_cases hne : x = y
    · exact .inl hne.symm
    · obtain ⟨c, hc, hcy⟩ := exists_child_of_anc t hy h hne
      exact .inr ⟨c, hc, hy, hcy⟩
  · rintro (rfl | ⟨c, hc, hy, hcy⟩)
    · exact ⟨hx, Anc.refl _⟩
    · rw [mem_dominatorChildren] at hc
      obtain ⟨-, -, -, rfl⟩ := hc
      exact ⟨hy, (Anc.parent_self c).trans hcy⟩

/-- The size of a subtree is one more than the sizes of the children's subtrees. -/
theorem card_subtree {x : ℕ} (hx : x < idom.length) :
    (subtree (idomParent idom) idom.length x).card
      = (((dominatorChildren idom).at x).map fun c =>
          (subtree (idomParent idom) idom.length c).card).sum + 1 := by
  rw [subtree_eq t hx, Finset.card_insert_of_notMem, Finset.card_biUnion]
  · rw [sum_toFinset _ (nodup_dominatorChildren x)]
  · intro a ha b hb hne
    refine Finset.disjoint_left.mpr fun y hya hyb => ?_
    rcases (mem_subtree.mp hya).2.total (mem_subtree.mp hyb).2 with h | h
    · exact not_anc_of_siblings t (by simpa using ha) (by simpa using hb) hne h
    · exact not_anc_of_siblings t (by simpa using hb) (by simpa using ha) (Ne.symm hne) h
  · simp only [Finset.mem_biUnion, mem_toFinset, mem_subtree, not_exists, not_and]
    intro c hc _ hcx
    rw [mem_dominatorChildren] at hc
    obtain ⟨-, hcl, hc0, rfl⟩ := hc
    have h1 := t.rank_le_of_anc (t.parent_mem c hcl hc0) hcx
    have h2 := t.rank_lt c hcl hc0
    omega

end Tree

/-! ### Visiting a forest -/

/-- The block lies in one of the subtrees. -/
def InForest (parent : ℕ → ℕ) (roots : List ℕ) (y : ℕ) : Prop := ∃ r ∈ roots, Anc parent r y

def Intervals.Contains (times : Intervals) (left right : ℕ) : Prop :=
  times.entry.getD left 0 ≤ times.entry.getD right 0
    ∧ times.exit.getD right 0 ≤ times.exit.getD left 0

/-- Effect of visiting the subtrees at `roots`, which takes the clock from `before` to `after`. -/
structure Visited (idom : List ℕ) (roots : List ℕ) (before after : Intervals) : Prop where
  entry_length : after.entry.length = before.entry.length
  exit_length : after.exit.length = before.exit.length
  clock_eq : after.clock = before.clock + 2 * (roots.map fun r =>
    (subtree (idomParent idom) idom.length r).card).sum
  inside : ∀ y < idom.length, InForest (idomParent idom) roots y →
    before.clock ≤ after.entry.getD y 0 ∧ after.entry.getD y 0 < after.exit.getD y 0
      ∧ after.exit.getD y 0 < after.clock
  outside : ∀ y < idom.length, ¬ InForest (idomParent idom) roots y →
    after.entry.getD y 0 = before.entry.getD y 0 ∧ after.exit.getD y 0 = before.exit.getD y 0
  contains_iff : ∀ y < idom.length, ∀ z < idom.length, InForest (idomParent idom) roots y →
    InForest (idomParent idom) roots z → (after.Contains y z ↔ Anc (idomParent idom) y z)

theorem Visited.nil (times : Intervals) : Visited idom [] times times where
  entry_length := rfl
  exit_length := rfl
  clock_eq := by simp
  inside y _ h := by obtain ⟨r, hr, _⟩ := h; simp at hr
  outside _ _ _ := ⟨rfl, rfl⟩
  contains_iff y _ z _ h _ := by obtain ⟨r, hr, _⟩ := h; simp at hr

/-- Visiting one subtree and then a forest incomparable with it. -/
theorem Visited.append {r : ℕ} {roots : List ℕ} {first second third : Intervals}
    (hinc : ∀ s ∈ roots, ¬ Anc (idomParent idom) r s ∧ ¬ Anc (idomParent idom) s r)
    (h1 : Visited idom [r] first second) (h2 : Visited idom roots second third) :
    Visited idom (r :: roots) first third := by
  have hsplit : ∀ y, InForest (idomParent idom) (r :: roots) y →
      (Anc (idomParent idom) r y ∧ ¬ InForest (idomParent idom) roots y)
        ∨ (InForest (idomParent idom) roots y ∧ ¬ Anc (idomParent idom) r y) := by
    rintro y ⟨s, hs, hsy⟩
    have hdisj : Anc (idomParent idom) r y → ¬ InForest (idomParent idom) roots y := by
      rintro hr ⟨s, hs, hsy⟩
      rcases hr.total hsy with h | h
      · exact (hinc s hs).1 h
      · exact (hinc s hs).2 h
    rcases mem_cons.mp hs with rfl | hs
    · exact .inl ⟨hsy, hdisj hsy⟩
    · exact .inr ⟨⟨s, hs, hsy⟩, fun hr => hdisj hr ⟨s, hs, hsy⟩⟩
  have hsingle : ∀ y, Anc (idomParent idom) r y → InForest (idomParent idom) [r] y :=
    fun y hy => ⟨r, by simp, hy⟩
  have hsingle' : ∀ y, ¬ Anc (idomParent idom) r y → ¬ InForest (idomParent idom) [r] y := by
    rintro y hy ⟨s, hs, hsy⟩
    obtain rfl : s = r := by simpa using hs
    exact hy hsy
  have hclock1 := h1.clock_eq
  have hclock2 := h2.clock_eq
  refine ⟨h2.entry_length.trans h1.entry_length, h2.exit_length.trans h1.exit_length, ?_,
    ?_, ?_, ?_⟩
  · simp only [map_cons, map_nil, sum_cons, sum_nil] at hclock1 ⊢
    omega
  · intro y hy hin
    rcases hsplit y hin with ⟨hr, hout⟩ | ⟨hrest, hr⟩
    · have hb := h1.inside y hy (hsingle y hr)
      have he := h2.outside y hy hout
      rw [he.1, he.2]
      omega
    · have hb := h2.inside y hy hrest
      omega
  · intro y hy hout
    have hr : ¬ Anc (idomParent idom) r y := fun h => hout ⟨r, by simp, h⟩
    have hrest : ¬ InForest (idomParent idom) roots y := by
      rintro ⟨s, hs, hsy⟩
      exact hout ⟨s, by simp [hs], hsy⟩
    have e1 := h1.outside y hy (hsingle' y hr)
    have e2 := h2.outside y hy hrest
    exact ⟨e2.1.trans e1.1, e2.2.trans e1.2⟩
  · intro y hy z hz hyin hzin
    rcases hsplit y hyin with ⟨hyr, hyout⟩ | ⟨hyrest, hyr⟩ <;>
      rcases hsplit z hzin with ⟨hzr, hzout⟩ | ⟨hzrest, hzr⟩
    · have e1 := h2.outside y hy hyout
      have e2 := h2.outside z hz hzout
      have := h1.contains_iff y hy z hz (hsingle y hyr) (hsingle z hzr)
      simpa only [Intervals.Contains, e1.1, e1.2, e2.1, e2.2] using this
    · have e1 := h2.outside y hy hyout
      have b1 := h1.inside y hy (hsingle y hyr)
      have b2 := h2.inside z hz hzrest
      refine iff_of_false (fun h => ?_) fun h => hzr (hyr.trans h)
      have := h.2
      rw [e1.2] at this
      omega
    · have e2 := h2.outside z hz hzout
      have b1 := h2.inside y hy hyrest
      have b2 := h1.inside z hz (hsingle z hzr)
      refine iff_of_false (fun h => ?_) fun h => ?_
      · have := h.1
        rw [e2.1] at this
        omega
      · obtain ⟨s, hs, hsy⟩ := hyrest
        exact hzout ⟨s, hs, hsy.trans h⟩
    · exact h2.contains_iff y hy z hz hyrest hzrest

/-! ### The loop -/

section Loop

variable (t : ParentTree (· < idom.length) (idomParent idom) rank)
include t

/-- Closing the subtree at `x` around the visit of its children. -/
theorem Visited.close {x : ℕ} (hx : x < idom.length) {before inner : Intervals}
    (hentry : before.entry.length = idom.length) (hexit : before.exit.length = idom.length)
    (h : Visited idom ((dominatorChildren idom).at x)
      { before with entry := before.entry.set x before.clock, clock := before.clock + 1 } inner) :
    Visited idom [x] before
      { inner with exit := inner.exit.set x inner.clock, clock := inner.clock + 1 } := by
  have hxout : ¬ InForest (idomParent idom) ((dominatorChildren idom).at x) x := by
    rintro ⟨c, hc, hcx⟩
    rw [mem_dominatorChildren] at hc
    obtain ⟨-, hcl, hc0, rfl⟩ := hc
    have h1 := t.rank_le_of_anc (t.parent_mem c hcl hc0) hcx
    have h2 := t.rank_lt c hcl hc0
    omega
  have hbelow : ∀ y, InForest (idomParent idom) ((dominatorChildren idom).at x) y →
      Anc (idomParent idom) x y := by
    rintro y ⟨c, hc, hcy⟩
    rw [mem_dominatorChildren] at hc
    obtain ⟨-, -, -, rfl⟩ := hc
    exact (Anc.parent_self c).trans hcy
  have hcases : ∀ y < idom.length, InForest (idomParent idom) [x] y →
      y = x ∨ (y ≠ x ∧ InForest (idomParent idom) ((dominatorChildren idom).at x) y) := by
    rintro y hy ⟨s, hs, hsy⟩
    obtain rfl : s = x := by simpa using hs
    by_cases hne : s = y
    · exact .inl hne.symm
    · exact .inr ⟨Ne.symm hne, exists_child_of_anc t hy hsy hne⟩
  have hel : inner.entry.length = idom.length := by
    rw [h.entry_length]
    simpa using hentry
  have hxl : inner.exit.length = idom.length := h.exit_length.trans hexit
  have hclock := h.clock_eq
  have hxentry : inner.entry.getD x 0 = before.clock := by
    rw [(h.outside x hx hxout).1]
    simp [getD_eq_getElem?_getD, hentry, hx]
  have hxexit : (inner.exit.set x inner.clock).getD x 0 = inner.clock := by
    simp [getD_eq_getElem?_getD, hxl, hx]
  have hexit_ne : ∀ y, y ≠ x →
      (inner.exit.set x inner.clock).getD y 0 = inner.exit.getD y 0 := by
    intro y hy
    simp [getD_eq_getElem?_getD, getElem?_set_ne (Ne.symm hy)]
  refine ⟨by rw [hel, hentry], by simp [hxl, hexit], ?_, ?_, ?_, ?_⟩
  · simp only [map_cons, map_nil, sum_cons, sum_nil, card_subtree t hx]
    simp only at hclock
    omega
  · intro y hy hin
    dsimp only
    rcases hcases y hy hin with rfl | ⟨hne, hin⟩
    · rw [hxentry, hxexit]
      simp only at hclock
      omega
    · have := h.inside y hy hin
      rw [hexit_ne y hne]
      simp only at this
      omega
  · intro y hy hout
    have hyx : y ≠ x := by
      rintro rfl
      exact hout ⟨y, by simp, Anc.refl _⟩
    have hy' : ¬ InForest (idomParent idom) ((dominatorChildren idom).at x) y :=
      fun hin => hout ⟨x, by simp, hbelow y hin⟩
    obtain ⟨e1, e2⟩ := h.outside y hy hy'
    dsimp only
    rw [hexit_ne y hyx, e1, e2]
    simp [getD_eq_getElem?_getD, getElem?_set_ne (Ne.symm hyx)]
  · intro y hy z hz hyin hzin
    simp only [Intervals.Contains]
    rcases hcases y hy hyin with rfl | ⟨hyne, hyin⟩ <;>
      rcases hcases z hz hzin with rfl | ⟨hzne, hzin⟩
    · exact iff_of_true ⟨le_refl _, le_refl _⟩ (Anc.refl _)
    · have b := h.inside z hz hzin
      refine iff_of_true ?_ (hbelow z hzin)
      rw [hxentry, hxexit, hexit_ne z hzne]
      simp only at b
      omega
    · have b := h.inside y hy hyin
      refine iff_of_false (fun hc => ?_) fun hanc => ?_
      · rw [hxentry] at hc
        simp only at b
        omega
      · obtain ⟨c, hc, hcy⟩ := hyin
        exact hxout ⟨c, hc, hcy.trans hanc⟩
    · have := h.contains_iff y hy z hz hyin hzin
      rw [hexit_ne y hyne, hexit_ne z hzne]
      exact this

/-- The loop visits the subtrees on top of the stack one after the other. -/
theorem intervalLoop_forest (m : ℕ) :
    ∀ (roots : List ℕ), (roots.map fun r =>
        (subtree (idomParent idom) idom.length r).card).sum ≤ m →
      (∀ r ∈ roots, r < idom.length) →
      roots.Pairwise (fun r s => ¬ Anc (idomParent idom) r s ∧ ¬ Anc (idomParent idom) s r) →
      ∀ (fuel : ℕ) (stack : List (ℕ × Bool)) (times : Intervals),
        times.entry.length = idom.length → times.exit.length = idom.length →
        ∃ times', intervalLoop (dominatorChildren idom)
            (2 * (roots.map fun r => (subtree (idomParent idom) idom.length r).card).sum + fuel)
            (roots.map (fun r => (r, false)) ++ stack) times
            = intervalLoop (dominatorChildren idom) fuel stack times'
          ∧ Visited idom roots times times' := by
  induction m using Nat.strong_induction_on with
  | _ m ihm =>
  intro roots
  induction roots with
  | nil =>
    intro _ _ _ fuel stack times _ _
    exact ⟨times, by simp, Visited.nil times⟩
  | cons x roots ih =>
    intro hm hlt hpair fuel stack times hentry hexit
    have hx : x < idom.length := hlt x (by simp)
    rw [pairwise_cons] at hpair
    have hcard := card_subtree t hx
    simp only [map_cons, sum_cons] at hm ⊢
    -- the children of `x` form a smaller forest
    obtain ⟨inner, hloop, hvis⟩ := ihm _ (by omega) ((dominatorChildren idom).at x) (le_refl _)
      (fun c hc => (mem_dominatorChildren.mp hc).2.1)
      ((nodup_dominatorChildren x).imp_of_mem fun ha hb hne =>
        ⟨not_anc_of_siblings t ha hb hne, not_anc_of_siblings t hb ha (Ne.symm hne)⟩)
      (2 * (roots.map fun r => (subtree (idomParent idom) idom.length r).card).sum + fuel + 1)
      ((x, true) :: (roots.map (fun r => (r, false)) ++ stack))
      { times with entry := times.entry.set x times.clock, clock := times.clock + 1 }
      (by simpa using hentry) hexit
    have hclose := hvis.close t hx hentry hexit
    obtain ⟨last, hloop', hvis'⟩ := ih (by omega) (fun r hr => hlt r (by simp [hr])) hpair.2
      fuel stack
      { inner with exit := inner.exit.set x inner.clock, clock := inner.clock + 1 }
      (hclose.entry_length.trans hentry) (hclose.exit_length.trans hexit)
    refine ⟨last, ?_, hclose.append (fun s hs => hpair.1 s hs) hvis'⟩
    have hfuel : 2 * ((subtree (idomParent idom) idom.length x).card
        + (roots.map fun r => (subtree (idomParent idom) idom.length r).card).sum) + fuel
        = (2 * (((dominatorChildren idom).at x).map fun c =>
            (subtree (idomParent idom) idom.length c).card).sum
          + (2 * (roots.map fun r => (subtree (idomParent idom) idom.length r).card).sum
            + fuel + 1)) + 1 := by
      omega
    rw [hfuel, cons_append, intervalLoop, hloop, intervalLoop, hloop']

/-- The interval test decides ancestry in the dominator tree. -/
theorem dominates_iff_anc {a b : ℕ} (ha : a < idom.length) (hb : b < idom.length) :
    (dominatorIntervals idom).dominates a b = true ↔ Anc (idomParent idom) a b := by
  have hroot : 0 < idom.length := t.root_mem
  have hall : subtree (idomParent idom) idom.length 0 = Finset.range idom.length := by
    ext y
    simp only [mem_subtree, Finset.mem_range, and_iff_left_iff_imp]
    exact fun hy => t.root_anc hy
  obtain ⟨times, hloop, hvis⟩ := intervalLoop_forest t _ [0] (le_refl _) (by simpa using hroot)
    (by simp) 1 [] ⟨List.replicate idom.length 0, List.replicate idom.length 0, 0⟩ (by simp)
    (by simp)
  simp only [map_cons, map_nil, sum_cons, sum_nil, hall, Finset.card_range,
    append_nil, Nat.add_zero] at hloop
  have htimes : dominatorIntervals idom = times := by
    rw [dominatorIntervals, hloop]
    rfl
  have := hvis.contains_iff a ha b hb ⟨0, by simp, t.root_anc ha⟩ ⟨0, by simp, t.root_anc hb⟩
  rw [htimes, ← this]
  simp [Intervals.dominates, Intervals.Contains]

end Loop

end Zryna.Ir.ControlFlow
