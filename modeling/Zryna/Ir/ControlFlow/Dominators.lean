import Mathlib.Data.Finset.Card
import Zryna.Foundation.Dominance
import Zryna.Foundation.ParentTree
import Zryna.Ir.ControlFlow.Postorder

/-!
# The iterative dominator computation

`immediateDominators` keeps a partial parent table over the reverse postorder and lowers entries
until a round changes nothing. Two facts hold of the table throughout (`DominatorTable`): a known
entry points to a known block that comes earlier in the reverse postorder, and no true dominator
is ever lost. The table returned is a fixed point, so the entry of a block is the nearest common
ancestor of its predecessors, and ancestry in the table is dominance
(`immediateDominators_spec`).
-/

namespace Zryna.Ir.ControlFlow

open Option List

/-! ### Positions -/

theorem idxOf_lt_idxOf_of_sublist {l : List ℕ} {a b : ℕ} (hnd : l.Nodup)
    (h : [a, b].Sublist l) : l.idxOf a < l.idxOf b := by
  induction l with
  | nil => cases h
  | cons x l ih =>
    rw [nodup_cons] at hnd
    cases h with
    | cons _ h =>
      have ha : a ∈ l := h.subset (by simp)
      have hb : b ∈ l := h.subset (by simp)
      have hxa : x ≠ a := by rintro rfl; exact hnd.1 ha
      have hxb : x ≠ b := by rintro rfl; exact hnd.1 hb
      rw [idxOf_cons_ne _ hxa, idxOf_cons_ne _ hxb]
      have := ih hnd.2 h
      omega
    | cons_cons _ h =>
      have hb : b ∈ l := h.subset (by simp)
      have hab : a ≠ b := by rintro rfl; exact hnd.1 hb
      rw [idxOf_cons_self, idxOf_cons_ne _ hab]
      omega

/-- A listing of all blocks that starts with the entry and in which every other block comes after
one of its predecessors. -/
structure ReversePostorder (predecessors : Adjacency) (count : ℕ) (order : List ℕ) : Prop where
  nodup : order.Nodup
  mem_iff : ∀ v, v ∈ order ↔ v < count
  head : ∃ blocks, order = 0 :: blocks
  pred_lt : ∀ b p, p ∈ predecessors.at b → p < count
  earlier : ∀ b, b < count → b ≠ 0 → ∃ p ∈ predecessors.at b, order.idxOf p < order.idxOf b

namespace ReversePostorder

variable {predecessors : Adjacency} {count : ℕ} {order : List ℕ} {a b : ℕ}

section

variable (h : ReversePostorder predecessors count order)

include h

theorem length_eq : order.length = count := by
  have hperm : order.Perm (range count) :=
    (perm_ext_iff_of_nodup h.nodup nodup_range).mpr fun v => by simp [h.mem_iff]
  simpa using hperm.length_eq

theorem idxOf_inj (ha : a < count) (hab : order.idxOf a = order.idxOf b) : a = b :=
  (List.idxOf_inj ((h.mem_iff a).mpr ha)).mp hab

theorem idxOf_lt (ha : a < count) : order.idxOf a < count :=
  h.length_eq ▸ idxOf_lt_length_of_mem ((h.mem_iff a).mpr ha)

end

theorem getD_positions (ha : a < count) : (positions order count).getD a 0 = order.idxOf a := by
  simp [positions, getD_eq_getElem?_getD, ha]

end ReversePostorder

/-! ### Tables -/

/-- The block has an entry. -/
def IdomTable.Known (idom : IdomTable) (b : ℕ) : Prop := ((idom[b]?).join).isSome = true

theorem IdomTable.known_iff {idom : IdomTable} {b : ℕ} :
    idom.Known b ↔ idom[b]? = some (some (idom.parent b)) := by
  unfold Known IdomTable.parent
  cases h : idom[b]? with
  | none => simp
  | some o => cases o <;> simp

theorem IdomTable.parent_eq {idom : IdomTable} {b p : ℕ} (h : idom[b]? = some (some p)) :
    idom.parent b = p := by
  simp [IdomTable.parent, h]

theorem IdomTable.Known.lt {idom : IdomTable} {b : ℕ} (h : idom.Known b) : b < idom.length := by
  rw [IdomTable.known_iff] at h
  exact (List.getElem?_eq_some_iff.mp h).1

/-- A partial parent table under construction. -/
structure DominatorTable (successors : Adjacency) (order : List ℕ) (idom : IdomTable) :
    Prop where
  length_eq : idom.length = successors.length
  root : idom[0]? = some (some 0)
  parent_known : ∀ b, idom.Known b → b ≠ 0 → idom.Known (idom.parent b)
  parent_lt : ∀ b, idom.Known b → b ≠ 0 → order.idxOf (idom.parent b) < order.idxOf b
  /-- The parent reaches the block without touching a block that comes before the parent. -/
  path : ∀ b, idom.Known b → b ≠ 0 →
    Relation.ReflTransGen
      (fun u v => v ∈ successors.at u ∧ order.idxOf (idom.parent b) < order.idxOf v)
      (idom.parent b) b
  complete : ∀ b d, idom.Known b →
    Dominates (fun u v => v ∈ successors.at u) 0 d b → Anc idom.parent d b

namespace DominatorTable

variable {successors : Adjacency} {order : List ℕ} {idom : IdomTable}
  (t : DominatorTable successors order idom)

include t

theorem root_known : idom.Known 0 := by
  simp [IdomTable.Known, t.root]

/-- The known part of the table is a tree ranked by position. -/
theorem tree : ParentTree idom.Known idom.parent order.idxOf where
  root_mem := t.root_known
  parent_root := IdomTable.parent_eq t.root
  parent_mem := t.parent_known
  rank_lt := t.parent_lt

/-- An ancestor reaches the block without touching a block that comes before it. -/
theorem path_of_anc {a b : ℕ} (hb : idom.Known b) (h : Anc idom.parent a b) :
    Relation.ReflTransGen (fun u v => v ∈ successors.at u ∧ order.idxOf a < order.idxOf v)
      a b := by
  induction hn : order.idxOf b using Nat.strong_induction_on generalizing b with
  | _ n ih =>
    by_cases hab : a = b
    · subst hab
      exact Relation.ReflTransGen.refl
    have h0 : b ≠ 0 := by
      rintro rfl
      exact hab (t.tree.anc_root.mp h)
    have h' := h.cases_parent.resolve_left hab
    have hlt := t.parent_lt b hb h0
    have hle := t.tree.rank_le_of_anc (t.parent_known b hb h0) h'
    refine (ih _ (hn ▸ hlt) (t.parent_known b hb h0) h' rfl).trans ?_
    exact (t.path b hb h0).lift id fun u v huv => ⟨huv.1, hle.trans_lt huv.2⟩

end DominatorTable

/-! ### Meets -/

theorem intersect_spec {successors predecessors : Adjacency} {order : List ℕ}
    {idom : IdomTable} (hrpo : ReversePostorder predecessors successors.length order)
    (t : DominatorTable successors order idom) (fuel : ℕ) :
    ∀ {left right : ℕ}, idom.Known left → idom.Known right →
      order.idxOf left + order.idxOf right < fuel →
      ParentTree.IsMeet idom.parent left right
        (intersect idom (positions order successors.length) fuel left right) := by
  induction fuel with
  | zero => intro left right _ _ hfuel; omega
  | succ fuel ih =>
    intro left right hl hr hfuel
    have hll : left < successors.length := t.length_eq ▸ hl.lt
    have hrl : right < successors.length := t.length_eq ▸ hr.lt
    simp only [intersect, ReversePostorder.getD_positions hll,
      ReversePostorder.getD_positions hrl]
    split
    · next h =>
      subst h
      exact .self _
    · next hne =>
      split
      · next hgt =>
        have h0 : left ≠ 0 := by
          rintro rfl
          obtain ⟨blocks, hblocks⟩ := hrpo.head
          simp [hblocks] at hgt
        have := t.parent_lt left hl h0
        exact (ih (t.parent_known left hl h0) hr (by omega)).of_parent t.tree hr hgt
      · split
        · next hgt =>
          have h0 : right ≠ 0 := by
            rintro rfl
            obtain ⟨blocks, hblocks⟩ := hrpo.head
            simp [hblocks] at hgt
          have := t.parent_lt right hr h0
          exact ((ih hl (t.parent_known right hr h0) (by omega)).symm.of_parent
            t.tree hl hgt).symm
        · -- distinct blocks have distinct positions
          exact absurd (hrpo.idxOf_inj hll (by omega)) hne

/-- `c` is the nearest common ancestor of a nonempty list of blocks. -/
structure IsMeetOf (parent : ℕ → ℕ) (nodes : List ℕ) (c : ℕ) : Prop where
  anc : ∀ p ∈ nodes, Anc parent c p
  nearest : ∀ d, (∀ p ∈ nodes, Anc parent d p) → Anc parent d c

theorem foldl_intersect_spec {successors predecessors : Adjacency} {order : List ℕ}
    {idom : IdomTable} (hrpo : ReversePostorder predecessors successors.length order)
    (t : DominatorTable successors order idom) (rest : List ℕ) :
    ∀ {first : ℕ}, idom.Known first → (∀ p ∈ rest, idom.Known p) →
      IsMeetOf idom.parent (first :: rest)
        (rest.foldl (fun candidate p => intersect idom (positions order successors.length)
          (2 * (positions order successors.length).length + 1) candidate p) first) := by
  induction rest with
  | nil =>
    intro first _ _
    exact ⟨by simp [Anc.refl], fun d hd => hd first (by simp)⟩
  | cons p rest ih =>
    intro first hf hrest
    have hp : idom.Known p := hrest p (by simp)
    have hfl := hrpo.idxOf_lt (t.length_eq ▸ hf.lt)
    have hpl := hrpo.idxOf_lt (t.length_eq ▸ hp.lt)
    have hmeet := intersect_spec hrpo t
      (2 * (positions order successors.length).length + 1) hf hp (by
        simp only [positions, length_map, length_range]
        omega)
    rw [foldl_cons]
    have h := ih (t.tree.mem_of_anc hf hmeet.left) fun q hq => hrest q (by simp [hq])
    constructor
    · intro q hq
      rcases mem_cons.mp hq with rfl | hq
      · exact (h.anc _ (by simp)).trans hmeet.left
      rcases mem_cons.mp hq with rfl | hq
      · exact (h.anc _ (by simp)).trans hmeet.right
      · exact h.anc q (by simp [hq])
    · intro d hd
      refine h.nearest d fun q hq => ?_
      rcases mem_cons.mp hq with rfl | hq
      · exact hmeet.nearest d (hd first (by simp)) (hd p (by simp))
      · exact hd q (by simp [hq])

variable {c x : ℕ} {o : Option ℕ}

/-- The candidate is the meet of the known predecessors. -/
theorem dominatorCandidate_spec {successors predecessors : Adjacency} {order : List ℕ}
    {idom : IdomTable} (hrpo : ReversePostorder predecessors successors.length order)
    (t : DominatorTable successors order idom) {b : ℕ}
    (h : dominatorCandidate predecessors (positions order successors.length) idom b = some c) :
    IsMeetOf idom.parent ((predecessors.at b).filter fun p => ((idom[p]?).join).isSome) c := by
  unfold dominatorCandidate at h
  split at h
  · cases h
  · next first rest heq =>
    cases h
    rw [heq]
    have hknown : ∀ p ∈ first :: rest, idom.Known p := fun p hp => by
      rw [← heq] at hp
      exact (mem_filter.mp hp).2
    exact foldl_intersect_spec hrpo t rest (hknown first (by simp))
      fun p hp => hknown p (by simp [hp])

/-! ### Updating an entry -/

theorem IdomTable.getElem?_set_ne {idom : IdomTable} {b : ℕ} (h : x ≠ b) :
    (idom.set b o)[x]? = idom[x]? := List.getElem?_set_ne (Ne.symm h)

theorem IdomTable.parent_set_ne {idom : IdomTable} {b : ℕ} (h : x ≠ b) :
    IdomTable.parent (idom.set b o) x = idom.parent x := by
  simp only [IdomTable.parent, IdomTable.getElem?_set_ne h]

theorem IdomTable.parent_set_self {idom : IdomTable} {b : ℕ} (h : b < idom.length) :
    IdomTable.parent (idom.set b (some c)) b = c := by
  simp [IdomTable.parent, h]

theorem IdomTable.known_set {idom : IdomTable} {b : ℕ} (h : b < idom.length) :
    IdomTable.Known (idom.set b (some c)) x ↔ x = b ∨ idom.Known x := by
  by_cases hx : x = b
  · subst hx
    simp [IdomTable.Known, h]
  · simp [IdomTable.Known, IdomTable.getElem?_set_ne hx, hx]

/-- Above a block that comes before `b` the update of `b` is not seen. -/
theorem DominatorTable.anc_set_iff {successors : Adjacency} {order : List ℕ} {idom : IdomTable}
    (t : DominatorTable successors order idom) {b : ℕ} (hx : idom.Known x)
    (hlt : order.idxOf x < order.idxOf b) (d : ℕ) :
    Anc (IdomTable.parent (idom.set b o)) d x ↔ Anc idom.parent d x := by
  induction hn : order.idxOf x using Nat.strong_induction_on generalizing x with
  | _ n ih =>
    have hxb : x ≠ b := by rintro rfl; omega
    rw [Anc.iff_parent, Anc.iff_parent (b := x), IdomTable.parent_set_ne hxb]
    by_cases h0 : x = 0
    · subst h0
      have hroot : IdomTable.parent (idom.set b o) 0 = 0 := by
        rw [IdomTable.parent_set_ne hxb, t.tree.parent_root]
      have hfix : Anc (IdomTable.parent (idom.set b o)) d 0 ↔ d = 0 := by
        constructor
        · rintro ⟨k, rfl⟩
          exact Function.iterate_fixed hroot k
        · rintro rfl
          exact Anc.refl _
      rw [t.tree.parent_root, hfix, t.tree.anc_root]
    · have hp := t.parent_lt x hx h0
      rw [ih _ (hn ▸ hp) (t.parent_known x hx h0) (hp.trans hlt) rfl]

/-- The predecessor that precedes `b` in the listing bounds the meet. -/
theorem DominatorTable.meet_earlier {successors predecessors : Adjacency} {order : List ℕ}
    {idom : IdomTable} (t : DominatorTable successors order idom)
    (hrpo : ReversePostorder predecessors successors.length order) {b : ℕ}
    (hb : b < successors.length) (h0 : b ≠ 0)
    (hearlier : ∀ x < successors.length, order.idxOf x < order.idxOf b → idom.Known x)
    (hmeet : IsMeetOf idom.parent
      ((predecessors.at b).filter fun p => ((idom[p]?).join).isSome) c) :
    ∃ q ∈ predecessors.at b, idom.Known q ∧ Anc idom.parent c q ∧ idom.Known c
      ∧ order.idxOf c < order.idxOf b := by
  obtain ⟨q, hq, hqlt⟩ := hrpo.earlier b hb h0
  have hqk : idom.Known q := hearlier q (hrpo.pred_lt b q hq) hqlt
  have hcq : Anc idom.parent c q := hmeet.anc q (mem_filter.mpr ⟨hq, hqk⟩)
  exact ⟨q, hq, hqk, hcq, t.tree.mem_of_anc hqk hcq,
    (t.tree.rank_le_of_anc hqk hcq).trans_lt hqlt⟩

/-- The entry of a block whose earlier blocks are all known can be set to the meet of its known
predecessors. -/
theorem DominatorTable.set {successors predecessors : Adjacency} {order : List ℕ}
    {idom : IdomTable} (hrpo : ReversePostorder predecessors successors.length order)
    (hpred : ∀ u v, u ∈ predecessors.at v → v ∈ successors.at u)
    (t : DominatorTable successors order idom) {b : ℕ} (hb : b < successors.length)
    (h0 : b ≠ 0) (hearlier : ∀ x < successors.length, order.idxOf x < order.idxOf b → idom.Known x)
    (hmeet : IsMeetOf idom.parent
      ((predecessors.at b).filter fun p => ((idom[p]?).join).isSome) c) :
    DominatorTable successors order (idom.set b (some c)) := by
  have hbl : b < idom.length := t.length_eq ▸ hb
  obtain ⟨q, hq, hqk, hcq, hck, hclt⟩ := t.meet_earlier hrpo hb h0 hearlier hmeet
  -- true dominators of `b` are above `c`
  have hcomplete : ∀ d, Dominates (fun u v => v ∈ successors.at u) 0 d b →
      Anc (IdomTable.parent (idom.set b (some c))) d b := by
    intro d hd
    by_cases hdb : d = b
    · subst hdb
      exact Anc.refl _
    · refine Anc.step ?_
      rw [IdomTable.parent_set_self hbl, t.anc_set_iff hck hclt]
      refine hmeet.nearest d fun p hp => ?_
      obtain ⟨hp, hpk⟩ := mem_filter.mp hp
      exact t.complete p d hpk (hd.pred hdb (hpred p b hp))
  refine ⟨by simpa using t.length_eq, ?_, ?_, ?_, ?_, ?_⟩
  · rw [IdomTable.getElem?_set_ne (Ne.symm h0)]
    exact t.root
  · intro x hx hx0
    rw [IdomTable.known_set hbl] at hx ⊢
    by_cases hxb : x = b
    · subst hxb
      rw [IdomTable.parent_set_self hbl]
      exact .inr hck
    · rw [IdomTable.parent_set_ne hxb]
      exact .inr (t.parent_known x (hx.resolve_left hxb) hx0)
  · intro x hx hx0
    rw [IdomTable.known_set hbl] at hx
    by_cases hxb : x = b
    · subst hxb
      rwa [IdomTable.parent_set_self hbl]
    · rw [IdomTable.parent_set_ne hxb]
      exact t.parent_lt x (hx.resolve_left hxb) hx0
  · intro x hx hx0
    rw [IdomTable.known_set hbl] at hx
    by_cases hxb : x = b
    · subst hxb
      rw [IdomTable.parent_set_self hbl]
      exact (t.path_of_anc hqk hcq).tail ⟨hpred q x hq, hclt⟩
    · rw [IdomTable.parent_set_ne hxb]
      exact t.path x (hx.resolve_left hxb) hx0
  · intro x d hx hd
    rw [IdomTable.known_set hbl] at hx
    rcases hx with rfl | hx
    · exact hcomplete d hd
    -- walk up from `x`: either the walk to `d` never uses the entry of `b`, or `d` dominates `b`
    induction hn : order.idxOf x using Nat.strong_induction_on generalizing x with
    | _ n ih =>
      by_cases hxb : x = b
      · subst hxb
        exact hcomplete d hd
      by_cases hdx : d = x
      · subst hdx
        exact Anc.refl _
      have hanc := t.complete x d hx hd
      have hx0 : x ≠ 0 := by
        rintro rfl
        exact hdx (t.tree.anc_root.mp hanc)
      have hanc' := hanc.cases_parent.resolve_left hdx
      have hpk := t.parent_known x hx hx0
      have hplt := t.parent_lt x hx hx0
      have hle := t.tree.rank_le_of_anc hpk hanc'
      have hdp : Dominates (fun u v => v ∈ successors.at u) 0 d (idom.parent x) := by
        refine hd.of_path ((t.path x hx hx0).lift id fun u v huv => ⟨huv.1, ?_⟩)
        rintro rfl
        exact absurd hle (Nat.not_le.mpr huv.2)
      refine Anc.step ?_
      rw [IdomTable.parent_set_ne hxb]
      exact ih _ (hn ▸ hplt) _ hdp hpk rfl

/-! ### Rounds -/

section Rounds

variable {successors predecessors : Adjacency} {order : List ℕ} {position result : List ℕ}

theorem dominatorStep_changed (state : IdomTable × Bool) (b : ℕ)
    (h : (dominatorStep predecessors position state b).2 = false) :
    dominatorStep predecessors position state b = state ∧ state.2 = false
      ∧ (dominatorCandidate predecessors position state.1 b = none
        ∨ dominatorCandidate predecessors position state.1 b = (state.1[b]?).join) := by
  unfold dominatorStep at h ⊢
  cases hc : dominatorCandidate predecessors position state.1 b with
  | none =>
    rw [hc] at h
    exact ⟨rfl, h, .inl rfl⟩
  | some c =>
    rw [hc] at h
    dsimp only at h ⊢
    split at h
    · next heq => exact ⟨if_pos heq, h, .inr heq.symm⟩
    · cases h

/-- A round that reports no change leaves the table as it was, and every entry it looked at
equals its candidate. -/
theorem foldl_dominatorStep_unchanged (blocks : List ℕ) :
    ∀ (state : IdomTable × Bool),
      (blocks.foldl (dominatorStep predecessors position) state).2 = false →
      blocks.foldl (dominatorStep predecessors position) state = state ∧ state.2 = false
        ∧ ∀ b ∈ blocks, dominatorCandidate predecessors position state.1 b = none
          ∨ dominatorCandidate predecessors position state.1 b = (state.1[b]?).join := by
  induction blocks with
  | nil => intro state h; exact ⟨rfl, h, by simp⟩
  | cons b blocks ih =>
    intro state h
    rw [foldl_cons] at h ⊢
    obtain ⟨hfold, hflag, hrest⟩ := ih _ h
    obtain ⟨hstep, hflag', hcand⟩ := dominatorStep_changed state b hflag
    rw [hstep] at hfold hrest ⊢
    refine ⟨hfold, hflag', fun x hx => ?_⟩
    rcases mem_cons.mp hx with rfl | hx
    · exact hcand
    · exact hrest x hx

/-- One step of a round. The blocks before `b` are done, so one of its predecessors is known, and
its entry becomes the meet of those that are. -/
theorem dominatorStep_spec (hrpo : ReversePostorder predecessors successors.length order)
    {done blocks : List ℕ} {b : ℕ} {state : IdomTable × Bool} (horder : order = done ++ b :: blocks)
    (h0 : 0 ∈ done) (t : DominatorTable successors order state.1)
    (hdone : ∀ x ∈ done, state.1.Known x) :
    b < successors.length ∧ b ≠ 0
      ∧ (∀ x < successors.length, order.idxOf x < order.idxOf b → x ∈ done)
      ∧ ∃ c, IsMeetOf state.1.parent
          ((predecessors.at b).filter fun p => ((state.1[p]?).join).isSome) c
        ∧ (dominatorStep predecessors (positions order successors.length) state b).1
          = state.1.set b (some c) := by
  have hb : b < successors.length := (hrpo.mem_iff b).mp (by simp [horder])
  have hnd : (done ++ b :: blocks).Nodup := horder ▸ hrpo.nodup
  have hbdone : b ∉ done := fun h => (nodup_append.mp hnd).2.2 b h b (by simp) rfl
  have hb0 : b ≠ 0 := by rintro rfl; exact hbdone h0
  have hidx : order.idxOf b = done.length := by
    rw [horder, idxOf_append_of_notMem hbdone]
    simp
  have hearlier : ∀ x < successors.length, order.idxOf x < order.idxOf b → x ∈ done := by
    intro x hx hlt
    by_contra hxd
    rw [hidx, horder, idxOf_append_of_notMem hxd] at hlt
    omega
  -- the candidate exists, since an earlier predecessor is known
  obtain ⟨q, hq, hqlt⟩ := hrpo.earlier b hb hb0
  have hqk := hdone q (hearlier q (hrpo.pred_lt b q hq) hqlt)
  obtain ⟨c, hc⟩ : ∃ c, dominatorCandidate predecessors
      (positions order successors.length) state.1 b = some c := by
    unfold dominatorCandidate
    split
    · next hnil =>
      have hin : q ∈ (predecessors.at b).filter fun p => ((state.1[p]?).join).isSome :=
        mem_filter.mpr ⟨hq, hqk⟩
      rw [hnil] at hin
      exact absurd hin not_mem_nil
    · exact ⟨_, rfl⟩
  refine ⟨hb, hb0, hearlier, c, dominatorCandidate_spec hrpo t hc, ?_⟩
  unfold dominatorStep
  rw [hc]
  dsimp only
  split
  · next heq =>
    -- the entry is not written, and it holds the candidate already
    have hbl : b < state.1.length := t.length_eq ▸ hb
    have hentry : state.1[b] = some c := by
      rw [getElem?_eq_getElem hbl] at heq
      exact heq
    rw [← hentry, set_getElem_self]
  · rfl

/-- A round keeps the table well formed, makes every block known, and keeps what its steps keep. -/
theorem foldl_dominatorStep_spec (hrpo : ReversePostorder predecessors successors.length order)
    (hpred : ∀ u v, u ∈ predecessors.at v → v ∈ successors.at u) {Q : List ℕ → IdomTable → Prop}
    (hkeep : ∀ {done : List ℕ} {idom : IdomTable} {b c : ℕ}, Q done idom →
      DominatorTable successors order idom → b < successors.length → b ≠ 0 →
      (∀ x ∈ done, idom.Known x) →
      (∀ x < successors.length, order.idxOf x < order.idxOf b → x ∈ done) →
      IsMeetOf idom.parent ((predecessors.at b).filter fun p => ((idom[p]?).join).isSome) c →
      Q (done ++ [b]) (idom.set b (some c))) (blocks : List ℕ) :
    ∀ (done : List ℕ) (state : IdomTable × Bool), order = done ++ blocks → 0 ∈ done →
      DominatorTable successors order state.1 → (∀ x ∈ done, state.1.Known x) → Q done state.1 →
      let next := (blocks.foldl (dominatorStep predecessors
        (positions order successors.length)) state).1
      DominatorTable successors order next ∧ (∀ x ∈ order, next.Known x) ∧ Q order next := by
  induction blocks with
  | nil =>
    intro done state horder _ t hdone hQ
    rw [append_nil] at horder
    exact ⟨t, horder ▸ hdone, horder ▸ hQ⟩
  | cons b blocks ih =>
    intro done state horder h0 t hdone hQ
    obtain ⟨hb, hb0, hearlier, c, hmeet, hstep⟩ := dominatorStep_spec hrpo horder h0 t hdone
    have hset := t.set hrpo hpred hb hb0 (fun x hx hlt => hdone x (hearlier x hx hlt)) hmeet
    have hnext := hkeep hQ t hb hb0 hdone hearlier hmeet
    have hbl : b < state.1.length := t.length_eq ▸ hb
    rw [foldl_cons]
    refine ih (done ++ [b]) _ (by simp [horder]) (by simp [h0]) (hstep ▸ hset) (fun x hx => ?_)
      (hstep ▸ hnext)
    rw [hstep, IdomTable.known_set hbl]
    rcases mem_append.mp hx with hx | hx
    · exact .inr (hdone x hx)
    · exact .inl (by simpa using hx)

/-- What the iteration returns: a tree over all blocks, ranked by the listing, whose ancestry is
dominance and in which the parent of a block is the meet of its predecessors. -/
structure DominatorTree (successors predecessors : Adjacency) (order : List ℕ)
    (parent : ℕ → ℕ) : Prop where
  tree : ParentTree (· < successors.length) parent order.idxOf
  meet : ∀ b < successors.length, b ≠ 0 → IsMeetOf parent (predecessors.at b) (parent b)
  complete : ∀ b d, b < successors.length →
    Dominates (fun u v => v ∈ successors.at u) 0 d b → Anc parent d b

/-- The parent function of a finished table. -/
def idomParent (idom : List ℕ) (b : ℕ) : ℕ := (idom[b]?).getD b

variable {idom : IdomTable}

theorem dominatorTree_of_fixed (hrpo : ReversePostorder predecessors successors.length order)
    (t : DominatorTable successors order idom) (hknown : ∀ x ∈ order, idom.Known x)
    (hfix : ∀ b ∈ order.drop 1,
      dominatorCandidate predecessors (positions order successors.length) idom b = none
      ∨ dominatorCandidate predecessors (positions order successors.length) idom b
        = (idom[b]?).join) : DominatorTree successors predecessors order idom.parent := by
  have hk : ∀ x < successors.length, idom.Known x := fun x hx => hknown x ((hrpo.mem_iff x).mpr hx)
  refine ⟨⟨t.length_eq ▸ t.root_known.lt, t.tree.parent_root,
    fun b hb h0 => t.length_eq ▸ (t.parent_known b (hk b hb) h0).lt,
    fun b hb h0 => t.parent_lt b (hk b hb) h0⟩, fun b hb h0 => ?_,
    fun b d hb hd => t.complete b d (hk b hb) hd⟩
  have hfilter : ((predecessors.at b).filter fun p => ((idom[p]?).join).isSome)
      = predecessors.at b := by
    refine filter_eq_self.mpr fun p hp => ?_
    exact hk p (hrpo.pred_lt b p hp)
  have hbk := IdomTable.known_iff.mp (hk b hb)
  have hmem : b ∈ order.drop 1 := by
    obtain ⟨blocks, hblocks⟩ := hrpo.head
    have : b ∈ order := (hrpo.mem_iff b).mpr hb
    rw [hblocks] at this ⊢
    simpa [h0] using this
  rcases hfix b hmem with hnone | hcand
  · -- some predecessor is known, so there is a candidate
    obtain ⟨q, hq, -⟩ := hrpo.earlier b hb h0
    unfold dominatorCandidate at hnone
    rw [hfilter] at hnone
    split at hnone
    · next hnil => rw [hnil] at hq; exact absurd hq not_mem_nil
    · cases hnone
  · rw [hbk] at hcand
    have := dominatorCandidate_spec hrpo t hcand
    rwa [hfilter] at this

theorem mapM_id_eq_some (h : idom.mapM id = some result) : idom = result.map some := by
  induction idom generalizing result with
  | nil =>
    simp only [mapM_nil, Option.pure_def, Option.some.injEq] at h
    subst h
    rfl
  | cons o idom ih =>
    simp only [mapM_cons, id_eq, Option.pure_def, bind_eq_bind,
      bind_eq_some_iff, Option.some.injEq] at h
    obtain ⟨x, rfl, xs, hxs, rfl⟩ := h
    rw [ih hxs]
    rfl

theorem idomParent_eq : IdomTable.parent (result.map some) = idomParent result := by
  funext b
  simp only [IdomTable.parent, idomParent, getElem?_map]
  cases result[b]? <;> rfl

theorem dominatorLoop_spec (hrpo : ReversePostorder predecessors successors.length order)
    (hpred : ∀ u v, u ∈ predecessors.at v → v ∈ successors.at u) (rounds : ℕ) :
    ∀ {idom : IdomTable} {result : List ℕ}, DominatorTable successors order idom →
      dominatorLoop predecessors (positions order successors.length) (order.drop 1) rounds idom
        = some result →
      result.length = successors.length
        ∧ DominatorTree successors predecessors order (idomParent result) := by
  induction rounds with
  | zero => intro idom result _ h; cases h
  | succ rounds ih =>
    intro idom result t h
    obtain ⟨blocks, hblocks⟩ := hrpo.head
    obtain ⟨ht, hk, -⟩ := foldl_dominatorStep_spec hrpo hpred (Q := fun _ _ => True)
      (fun _ _ _ _ _ _ _ => trivial) (order.drop 1) [0] (idom, false) (by simp [hblocks])
      (by simp) t (by simpa using t.root_known) trivial
    rw [dominatorLoop] at h
    dsimp only at h
    split at h
    · exact ih ht h
    · next hch =>
      have hch' : (dominatorRound predecessors (positions order successors.length)
          (order.drop 1) idom).2 = false := by simpa using hch
      obtain ⟨heq, -, hfix⟩ := foldl_dominatorStep_unchanged (order.drop 1) (idom, false) hch'
      change dominatorRound _ _ _ _ = _ at heq
      rw [heq] at h
      have hres : idom = result.map some := mapM_id_eq_some h
      rw [show (foldl (dominatorStep predecessors (positions order successors.length))
        (idom, false) (order.drop 1)) = (idom, false) from heq] at hk
      have htree := dominatorTree_of_fixed hrpo t hk hfix
      rw [hres, idomParent_eq] at htree
      refine ⟨?_, htree⟩
      have := t.length_eq
      rw [hres, length_map] at this
      exact this

end Rounds

/-! ### The whole computation -/

structure GraphLists (successors predecessors : Adjacency) : Prop where
  valid : successors.Valid
  mem_iff : ∀ u v, u ∈ predecessors.at v ↔ v ∈ successors.at u

theorem reversePostorder_of_length {successors predecessors : Adjacency}
    (hg : GraphLists successors predecessors)
    (hlen : (postorder successors).length = successors.length) :
    ReversePostorder predecessors successors.length (postorder successors).reverse := by
  have h := postorder_spec hg.valid
  have hmem : ∀ v, v ∈ postorder successors ↔ v < successors.length := by
    intro v
    refine ⟨h.lt v, fun hv => ?_⟩
    have hsub : (postorder successors).toFinset ⊆ Finset.range successors.length := by
      intro x hx
      simpa using h.lt x (by simpa using hx)
    have hcard : (postorder successors).toFinset.card = (Finset.range successors.length).card := by
      rw [toFinset_card_of_nodup h.nodup, hlen, Finset.card_range]
    have := Finset.eq_of_subset_of_card_le hsub hcard.ge
    have hvr : v ∈ Finset.range successors.length := by simpa using hv
    rw [← this] at hvr
    simpa using hvr
  refine ⟨nodup_reverse.mpr h.nodup, fun v => by rw [mem_reverse, hmem], ?_, ?_, ?_⟩
  · have hhead : (postorder successors).reverse.head? = some 0 := by
      rw [head?_reverse]
      exact h.last
    cases hrev : (postorder successors).reverse with
    | nil => simp [hrev] at hhead
    | cons x blocks =>
      rw [hrev, head?_cons, Option.some.injEq] at hhead
      exact ⟨blocks, by rw [hhead]⟩
  · intro b p hp
    exact Adjacency.lt_of_mem_at ((hg.mem_iff p b).mp hp)
  · intro b hb h0
    obtain ⟨u, hu, hsub⟩ := h.later b ((hmem b).mpr hb) h0
    refine ⟨u, (hg.mem_iff u b).mpr hu, ?_⟩
    have hrev : [u, b].Sublist (postorder successors).reverse := by
      simpa using hsub.reverse
    exact idxOf_lt_idxOf_of_sublist (nodup_reverse.mpr h.nodup) hrev

theorem dominatorTable_initial {successors : Adjacency} (hvalid : successors.Valid)
    (order : List ℕ) :
    DominatorTable successors order
      ((replicate successors.length none).set 0 (some 0)) := by
  have hknown : ∀ b, IdomTable.Known
      ((replicate successors.length none).set 0 (some 0)) b → b = 0 := by
    intro b hb
    by_contra h0
    rw [IdomTable.Known, IdomTable.getElem?_set_ne h0, getElem?_replicate] at hb
    split at hb <;> simp at hb
  have hroot : ((replicate successors.length (none : Option ℕ)).set 0 (some 0))[0]?
      = some (some 0) := by
    have := hvalid.nonempty
    simp [this]
  refine ⟨by simp, hroot, fun b hb h0 => absurd (hknown b hb) h0,
    fun b hb h0 => absurd (hknown b hb) h0, fun b hb h0 => absurd (hknown b hb) h0,
    fun b d hb hd => ?_⟩
  obtain rfl := hknown b hb
  by_cases hd0 : d = 0
  · subst hd0
    exact Anc.refl _
  · exact absurd ⟨hd0, Relation.ReflTransGen.refl⟩ hd

/-- The edges of a graph. -/
def Adjacency.Edge (successors : Adjacency) (u v : ℕ) : Prop := v ∈ successors.at u

/-- In a dominator tree ancestry is dominance. -/
theorem DominatorTree.anc_iff {successors predecessors : Adjacency} {order : List ℕ}
    (hg : GraphLists successors predecessors) {parent : ℕ → ℕ}
    (h : DominatorTree successors predecessors order parent) {a b : ℕ}
    (hb : b < successors.length) : Anc parent a b ↔ Dominates successors.Edge 0 a b := by
  refine ⟨fun hanc => ?_, h.complete b a hb⟩
  -- an ancestor of a block is the block or an ancestor of each of its predecessors
  refine dominates_of_closed (D := fun d x => x < successors.length ∧ Anc parent d x)
    (fun d hd => h.tree.anc_root.mp hd.2) (fun d u v huv hd => ?_) ⟨hb, hanc⟩
  obtain ⟨hv, hdv⟩ := hd
  have hu : u < successors.length := Adjacency.lt_of_mem_at huv
  by_cases hdv' : d = v
  · exact .inl hdv'
  refine .inr ⟨hu, ?_⟩
  by_cases hv0 : v = 0
  · subst hv0
    exact absurd (h.tree.anc_root.mp hdv) hdv'
  · exact (hdv.cases_parent.resolve_left hdv').trans
      ((h.meet v hv hv0).anc u ((hg.mem_iff u v).mpr huv))

/-- A table returned by `immediateDominators` is the dominator tree of the graph. -/
theorem immediateDominators_spec {successors predecessors : Adjacency}
    (hg : GraphLists successors predecessors) {idom : List ℕ}
    (h : immediateDominators successors predecessors = some idom) :
    idom.length = successors.length
      ∧ ReversePostorder predecessors successors.length (postorder successors).reverse
      ∧ DominatorTree successors predecessors (postorder successors).reverse
          (idomParent idom) := by
  unfold immediateDominators at h
  dsimp only at h
  split at h
  · cases h
  · next hlen =>
    have hrpo := reversePostorder_of_length hg (not_not.mp hlen)
    have := dominatorLoop_spec hrpo (fun u v huv => (hg.mem_iff u v).mp huv) _
      (dominatorTable_initial hg.valid _) h
    exact ⟨this.1, hrpo, this.2⟩

end Zryna.Ir.ControlFlow
