import Zryna.Foundation.RetreatWalk
import Zryna.Ir.ControlFlow.Intervals

/-!
# The pass bound of the dominator computation

`dominatorLoop` gives up after as many passes as there are blocks. That is enough on every graph
whose blocks are reachable, reducible or not (`dominatorLoop_returns`).

A pass visits the blocks in reverse postorder, so what it may have missed is counted by the
retreating edges of a walk. `Swept` is the invariant: after `k` passes, an ancestor `d` of a block
in the table is avoided only by walks with `k` retreating edges or more. There are at most
`count - 2` of them on the walks that matter (`RetreatWalk.exists_lt`, without `d`), so after
`count - 1` passes every ancestor is a dominator, and the last pass changes nothing.
-/

namespace Zryna.Ir.ControlFlow

open List

variable {successors predecessors : Adjacency} {order : List ℕ}

/-- Some way into pass `k + 1`, with the blocks in `done` behind it: the walks to a block with
fewer than `k` retreating edges are accounted for, and for a block in `done` those with `k` too.
A block without an entry has not lost anything yet, so every block counts as its ancestor. -/
def Swept (successors : Adjacency) (order : List ℕ) (idom : IdomTable) (done : List ℕ) (k : ℕ) :
    Prop :=
  ∀ x d j, d ≠ 0 → (idom.Known x → Anc idom.parent d x) →
    RetreatWalk successors.Edge order.idxOf 0 d j x → k ≤ j ∧ (x ∈ done → k + 1 ≤ j)

variable {b d x c : ℕ} {idom : IdomTable}

/-- An ancestor after the update was one before, or it is one of the updated block. -/
theorem anc_set_cases {o : Option ℕ} (h : Anc (IdomTable.parent (idom.set b o)) d x) :
    Anc idom.parent d x
      ∨ Anc idom.parent b x ∧ Anc (IdomTable.parent (idom.set b o)) d b := by
  obtain ⟨k, hk⟩ := h
  induction k generalizing x with
  | zero =>
    obtain rfl : x = d := hk
    exact .inl (.refl _)
  | succ k ih =>
    by_cases hx : x = b
    · subst hx
      exact .inr ⟨.refl _, k + 1, hk⟩
    rw [Function.iterate_succ_apply, IdomTable.parent_set_ne hx] at hk
    obtain h | ⟨hb, hd⟩ := ih hk
    · exact .inl h.step
    · exact .inr ⟨hb.step, hd⟩

/-- The entry block has no ancestor but itself, so nothing is claimed of it. -/
theorem Swept.entry (t : DominatorTable successors order idom)
    (hd : d ≠ 0) : ¬ (idom.Known 0 → Anc idom.parent d 0) := by
  intro h
  exact hd (t.tree.anc_root.mp (h t.root_known))

theorem swept_initial (t : DominatorTable successors order idom) :
    Swept successors order idom [0] 0 := by
  intro x d j hd hanc _
  refine ⟨Nat.zero_le j, fun hx => ?_⟩
  obtain rfl : x = 0 := by simpa using hx
  exact absurd hanc (Swept.entry t hd)

/-- One step of a pass. -/
theorem Swept.set {done : List ℕ} {k : ℕ} (hswept : Swept successors order idom done k)
    (hrpo : ReversePostorder predecessors successors.length order)
    (hpred : ∀ u v, v ∈ successors.at u → u ∈ predecessors.at v)
    (t : DominatorTable successors order idom) (hb : b < successors.length) (hb0 : b ≠ 0)
    (hdone : ∀ x ∈ done, idom.Known x)
    (hearlier : ∀ x < successors.length, order.idxOf x < order.idxOf b → x ∈ done)
    (hmeet : IsMeetOf idom.parent
      ((predecessors.at b).filter fun p => ((idom[p]?).join).isSome) c) :
    Swept successors order (idom.set b (some c)) (done ++ [b]) k := by
  have hbl : b < idom.length := t.length_eq ▸ hb
  obtain ⟨-, -, -, -, hck, hclt⟩ :=
    t.meet_earlier hrpo hb hb0 (fun x hx hlt => hdone x (hearlier x hx hlt)) hmeet
  -- a walk to `b` comes in over a predecessor, which has the ancestor as well
  have hnew (d j : ℕ) (hd : d ≠ 0) (hanc : Anc (IdomTable.parent (idom.set b (some c))) d b)
      (hwalk : RetreatWalk successors.Edge order.idxOf 0 d j b) : k + 1 ≤ j := by
    have hdc : Anc idom.parent d c := by
      have h := hanc.cases_parent.resolve_left hwalk.avoids.ne
      rw [IdomTable.parent_set_self hbl] at h
      exact (t.anc_set_iff hck hclt d).mp h
    have habove (p : ℕ) (hp : b ∈ successors.at p) (hpk : idom.Known p) : Anc idom.parent d p :=
      hdc.trans (hmeet.anc p (mem_filter.mpr ⟨hpred p b hp, hpk⟩))
    cases hwalk with
    | root _ => exact absurd rfl hb0
    | @advance _ u _ h hedge _ hlt =>
      have hu : u < successors.length := Adjacency.lt_of_mem_at hedge
      exact (hswept u d j hd (habove u hedge) h).2 (hearlier u hu hlt)
    | @retreat i u _ h hedge _ _ =>
      have := (hswept u d i hd (habove u hedge) h).1
      omega
  intro x d j hd hanc hwalk
  by_cases hxb : x = b
  · subst hxb
    have hle := hnew d j hd (hanc ((IdomTable.known_set hbl).mpr (.inl rfl))) hwalk
    exact ⟨by omega, fun _ => hle⟩
  have hold : k ≤ j ∧ (x ∈ done → k + 1 ≤ j) := by
    by_cases hx : idom.Known x
    · obtain h | ⟨hbx, hdb⟩ := anc_set_cases (hanc ((IdomTable.known_set hbl).mpr (.inr hx)))
      · exact hswept x d j hd (fun _ => h) hwalk
      · -- the ancestor is above `b`: the walk avoids `b`, or a part of it ends there
        obtain havoid | ⟨i, hi, hpass⟩ := hwalk.split hb0
        · exact hswept x b j hb0 (fun _ => hbx) havoid
        · have := hnew d i hd hdb hpass
          exact ⟨by omega, fun _ => by omega⟩
    · exact hswept x d j hd (fun h => absurd h hx) hwalk
  refine ⟨hold.1, fun hx => hold.2 ?_⟩
  rcases mem_append.mp hx with hx | hx
  · exact hx
  · exact absurd (by simpa using hx) hxb

theorem retreatWalk_lt (hvalid : successors.Valid) {pos : ℕ → ℕ} {j : ℕ}
    (h : RetreatWalk successors.Edge pos 0 d j x) : x < successors.length := by
  cases h with
  | root _ => exact hvalid.nonempty
  | advance _ hedge _ _ => exact hvalid.lt _ _ hedge
  | retreat _ hedge _ _ => exact hvalid.lt _ _ hedge

/-- A whole pass. -/
theorem Swept.round (hvalid : successors.Valid)
    (hrpo : ReversePostorder predecessors successors.length order)
    (hpred : ∀ u v, u ∈ predecessors.at v ↔ v ∈ successors.at u) {k : ℕ}
    (t : DominatorTable successors order idom) (hswept : Swept successors order idom [0] k)
    {next : IdomTable} {changed : Bool}
    (hround : dominatorRound predecessors (positions order successors.length) (order.drop 1) idom
      = (next, changed)) :
    DominatorTable successors order next ∧ (∀ x ∈ order, next.Known x)
      ∧ Swept successors order next [0] (k + 1) := by
  obtain ⟨blocks, hblocks⟩ := hrpo.head
  have horder : order = [0] ++ order.drop 1 := by simp [hblocks]
  have hknown : ∀ x ∈ [0], idom.Known x := by simpa using t.root_known
  obtain ⟨ht, hall, hnext⟩ := foldl_dominatorStep_spec hrpo (fun u v => (hpred u v).mp)
    (fun hswept t => Swept.set hswept hrpo (fun u v => (hpred u v).mpr) t) (order.drop 1) [0]
    (idom, false) horder (by simp) t hknown hswept
  rw [show (order.drop 1).foldl (dominatorStep predecessors (positions order successors.length))
    (idom, false) = (next, changed) from hround] at ht hall hnext
  refine ⟨ht, hall, fun x d j hd hanc hwalk => ⟨?_, fun hx => ?_⟩⟩
  · exact (hnext x d j hd hanc hwalk).2 ((hrpo.mem_iff x).mpr (retreatWalk_lt hvalid hwalk))
  · obtain rfl : x = 0 := by simpa using hx
    exact absurd hanc (Swept.entry ht hd)

/-! ### The last pass -/

/-- After `count - 1` passes no walk is left that an ancestor does not lie on. -/
theorem Swept.dominates (hvalid : successors.Valid) {done : List ℕ}
    (t : DominatorTable successors order idom)
    (hswept : Swept successors order idom done (successors.length - 1))
    (hx : idom.Known x) (h : Anc idom.parent d x) : Dominates successors.Edge 0 d x := by
  by_cases hd : d = 0
  · subst hd
    exact .root
  intro havoids
  obtain ⟨k, hwalk⟩ := havoids.exists_retreatWalk order.idxOf
  have hdlt : d < successors.length := t.length_eq ▸ (t.tree.mem_of_anc hx h).lt
  -- the blocks on the walks are the others
  obtain ⟨j, hj, hwalk⟩ : ∃ j < ((Finset.range successors.length).erase d).card,
      RetreatWalk successors.Edge order.idxOf 0 d j x := by
    refine hwalk.exists_lt fun u hu => ?_
    obtain ⟨i, hi⟩ := hu.exists_retreatWalk order.idxOf
    rw [Finset.mem_erase, Finset.mem_range]
    exact ⟨hu.ne.symm, retreatWalk_lt hvalid hi⟩
  rw [Finset.card_erase_of_mem (Finset.mem_range.mpr hdlt), Finset.card_range] at hj
  have := (hswept x d j hd (fun _ => h) hwalk).1
  omega

section

variable (hrpo : ReversePostorder predecessors successors.length order)
  (hpred : ∀ u v, u ∈ predecessors.at v ↔ v ∈ successors.at u)
  (t : DominatorTable successors order idom) (hknown : ∀ x ∈ order, idom.Known x)
  (hexact : ∀ x d, idom.Known x → Anc idom.parent d x → Dominates successors.Edge 0 d x)

include hrpo hpred t hknown hexact

/-- Where ancestry is dominance, the candidate of a block is the entry that it has. -/
theorem candidate_eq_parent
    (hb : b < successors.length) (hb0 : b ≠ 0) (hmeet : IsMeetOf idom.parent
      ((predecessors.at b).filter fun p => ((idom[p]?).join).isSome) c) : c = idom.parent b := by
  have hk : ∀ x < successors.length, idom.Known x := fun x hx => hknown x ((hrpo.mem_iff x).mpr hx)
  have hbk := hk b hb
  obtain ⟨-, -, -, -, hck, hclt⟩ := t.meet_earlier hrpo hb hb0 (fun x hx _ => hk x hx) hmeet
  have hmem (p : ℕ) (hp : b ∈ successors.at p) :
      p ∈ (predecessors.at b).filter fun p => ((idom[p]?).join).isSome :=
    mem_filter.mpr ⟨(hpred p b).mpr hp, hk p (Adjacency.lt_of_mem_at hp)⟩
  refine t.tree.anc_antisymm (t.parent_known b hbk hb0) ?_ ?_
  · -- the candidate is above every predecessor, so it dominates the block
    have hdom : Dominates successors.Edge 0 c b := Dominates.of_preds hb0 fun p hp =>
      hexact p c (hk p (Adjacency.lt_of_mem_at hp)) (hmeet.anc p (hmem p hp))
    refine (t.complete b c hbk hdom).cases_parent.resolve_left ?_
    rintro rfl
    omega
  · -- the entry dominates the block and, being another block, every predecessor
    refine hmeet.nearest _ fun p hp => ?_
    obtain ⟨hp, hpk⟩ := mem_filter.mp hp
    refine t.complete p _ hpk ((hexact b _ hbk (.parent_self b)).pred ?_ ((hpred p b).mp hp))
    intro heq
    have := t.parent_lt b hbk hb0
    rw [heq] at this
    omega

/-- A pass over such a table changes nothing. -/
theorem dominatorRound_exact :
    dominatorRound predecessors (positions order successors.length) (order.drop 1) idom
      = (idom, false) := by
  obtain ⟨rest, hrest⟩ := hrpo.head
  have hblocks : ∀ b ∈ order.drop 1, b < successors.length ∧ b ≠ 0 := by
    intro b hb
    refine ⟨(hrpo.mem_iff b).mp (mem_of_mem_drop hb), ?_⟩
    rintro rfl
    have hnd := hrpo.nodup
    rw [hrest] at hnd hb
    exact (nodup_cons.mp hnd).1 hb
  unfold dominatorRound
  generalize order.drop 1 = blocks at hblocks
  induction blocks with
  | nil => rfl
  | cons b blocks ih =>
    have hstep : dominatorStep predecessors (positions order successors.length) (idom, false) b
        = (idom, false) := by
      obtain ⟨hb, hb0⟩ := hblocks b (by simp)
      have hbk := hknown b ((hrpo.mem_iff b).mpr hb)
      unfold dominatorStep
      cases hc : dominatorCandidate predecessors (positions order successors.length) idom b with
      | none => rfl
      | some c =>
        have hcandidate := candidate_eq_parent hrpo hpred t hknown hexact hb hb0
          (dominatorCandidate_spec hrpo t hc)
        refine if_pos ?_
        show (idom[b]?).join = some c
        rw [IdomTable.known_iff.mp hbk, hcandidate]
        rfl
    rw [foldl_cons, hstep]
    exact ih fun x hx => hblocks x (by simp [hx])

end

theorem exists_mapM_id (h : ∀ o ∈ idom, o.isSome = true) :
    ∃ result, idom.mapM id = some result := by
  induction idom with
  | nil => exact ⟨[], rfl⟩
  | cons o idom ih =>
    obtain ⟨result, hresult⟩ := ih fun x hx => h x (by simp [hx])
    obtain ⟨x, rfl⟩ := Option.isSome_iff_exists.mp (h o (by simp))
    exact ⟨x :: result, by simp [mapM_cons, hresult]⟩

/-- With as many passes as there are blocks, the iteration comes to an end. -/
theorem dominatorLoop_returns (hvalid : successors.Valid)
    (hrpo : ReversePostorder predecessors successors.length order)
    (hpred : ∀ u v, u ∈ predecessors.at v ↔ v ∈ successors.at u) (rounds : ℕ) :
    ∀ (k : ℕ) (idom : IdomTable), DominatorTable successors order idom →
      Swept successors order idom [0] k → (k = 0 ∨ ∀ x ∈ order, idom.Known x) →
      0 < rounds → rounds + k = successors.length →
      ∃ result, dominatorLoop predecessors (positions order successors.length) (order.drop 1)
        rounds idom = some result := by
  induction rounds with
  | zero =>
    intro k idom _ _ _ h0
    exact absurd h0 (Nat.lt_irrefl 0)
  | succ rounds ih =>
    intro k idom t hswept hknown _ hrounds
    obtain ⟨next, changed, hround⟩ : ∃ next changed, dominatorRound predecessors
        (positions order successors.length) (order.drop 1) idom = (next, changed) := ⟨_, _, rfl⟩
    obtain ⟨ht, hall, hnext⟩ := hswept.round hvalid hrpo hpred t hround
    rw [dominatorLoop, hround]
    dsimp only
    cases changed with
    | false =>
      refine exists_mapM_id fun o ho => ?_
      obtain ⟨x, hx, rfl⟩ := mem_iff_getElem.mp ho
      have hxk := hall x ((hrpo.mem_iff x).mpr (ht.length_eq ▸ hx))
      rw [IdomTable.known_iff, getElem?_eq_getElem hx, Option.some.injEq] at hxk
      rw [hxk]
      rfl
    | true =>
      by_cases hlast : rounds = 0
      · -- the last pass works on an exact table
        subst hlast
        exfalso
        have hk : k = successors.length - 1 := by omega
        subst hk
        have hknown' : ∀ x ∈ order, idom.Known x := by
          refine hknown.elim (fun h0 => fun x hx => ?_) id
          have hx := (hrpo.mem_iff x).mp hx
          obtain rfl : x = 0 := by omega
          exact t.root_known
        have hexact := dominatorRound_exact hrpo hpred t hknown' fun x d hx h =>
          hswept.dominates hvalid t hx h
        rw [hround] at hexact
        cases hexact
      · exact ih (k + 1) next ht hnext (.inr hall) (Nat.pos_of_ne_zero hlast) (by omega)

/-! ### The whole computation -/

/-- Every block is reachable. -/
def Adjacency.Connected (successors : Adjacency) : Prop :=
  ∀ v < successors.length, Reaches successors v

theorem length_postorder (hvalid : successors.Valid) (hconnected : successors.Connected) :
    (postorder successors).length = successors.length := by
  have h := postorder_spec hvalid
  have hperm : (postorder successors).Perm (List.range successors.length) :=
    (perm_ext_iff_of_nodup h.nodup nodup_range).mpr fun v => by
      rw [mem_range]
      exact ⟨h.lt v, fun hv => (h.mem_iff v).mpr (hconnected v hv)⟩
  simpa using hperm.length_eq

/-- The computation returns a table. -/
theorem immediateDominators_returns (hg : GraphLists successors predecessors)
    (hconnected : successors.Connected) :
    ∃ idom, immediateDominators successors predecessors = some idom := by
  have hlen := length_postorder hg.valid hconnected
  have hrpo := reversePostorder_of_length hg hlen
  unfold immediateDominators
  dsimp only
  rw [if_neg (not_not.mpr hlen)]
  have t := dominatorTable_initial hg.valid (postorder successors).reverse
  exact dominatorLoop_returns hg.valid hrpo hg.mem_iff successors.length 0 _ t (swept_initial t)
    (.inl rfl) hg.valid.nonempty (Nat.add_zero _)

theorem DominatorTree.immediate_iff (hg : GraphLists successors predecessors) {parent : ℕ → ℕ}
    (h : DominatorTree successors predecessors order parent) {p : ℕ}
    (hb : b < successors.length) (hb0 : b ≠ 0) :
    ImmediatelyDominates successors.Edge 0 p b ↔ p = parent b := by
  have hne : parent b ≠ b := by
    intro heq
    have := h.tree.rank_lt b hb hb0
    rw [heq] at this
    omega
  have hparent : Dominates successors.Edge 0 (parent b) b := (h.anc_iff hg hb).mp (.parent_self b)
  have hpb := h.tree.parent_mem b hb hb0
  constructor
  · rintro ⟨hpne, hp, hnearest⟩
    -- each of the two is above the other
    have hpanc := ((h.anc_iff hg hb).mpr hp).cases_parent.resolve_left hpne
    have hplt := h.tree.mem_of_anc hb ((h.anc_iff hg hb).mpr hp)
    exact h.tree.anc_antisymm hpb hpanc
      ((h.anc_iff hg hplt).mpr (hnearest _ hne hparent))
  · rintro rfl
    refine ⟨hne, hparent, fun d hd hdom => ?_⟩
    exact (h.anc_iff hg hpb).mp (((h.anc_iff hg hb).mpr hdom).cases_parent.resolve_left hd)

/-- On every graph whose blocks are reachable the computation ends within its passes, the entry of
a block is its immediate dominator and there is no other, and the interval test is dominance. -/
theorem immediateDominators_exact (hg : GraphLists successors predecessors)
    (hconnected : successors.Connected) :
    ∃ idom, immediateDominators successors predecessors = some idom
      ∧ idom.length = successors.length
      ∧ (∀ b < successors.length, b ≠ 0 → ∀ p,
        ImmediatelyDominates successors.Edge 0 p b ↔ idom[b]? = some p)
      ∧ ∀ a < successors.length, ∀ b < successors.length,
        (dominatorIntervals idom).dominates a b = true ↔ Dominates successors.Edge 0 a b := by
  obtain ⟨idom, hidom⟩ := immediateDominators_returns hg hconnected
  obtain ⟨hlength, -, htree⟩ := immediateDominators_spec hg hidom
  refine ⟨idom, hidom, hlength, fun b hb hb0 p => ?_, fun a ha b hb => ?_⟩
  · rw [htree.immediate_iff hg hb hb0, idomParent, getElem?_eq_getElem (hlength ▸ hb),
      Option.getD_some, Option.some.injEq, eq_comm]
  · have htree' := htree.tree
    rw [← hlength] at htree' ha
    rw [dominates_iff_anc htree' ha (hlength ▸ hb), htree.anc_iff hg hb]

/-- Two blocks that jump to each other, both entered from the entry block, with a doubled edge and
an edge from a block to itself. -/
def crossedEntry : Adjacency := [[1, 2, 2], [2], [1, 2]]

def crossedEntryPredecessors : Adjacency := [[], [0, 2], [0, 0, 1, 2]]

theorem crossedEntry_lists : GraphLists crossedEntry crossedEntryPredecessors := by
  have hlt : ∀ u < 3, ∀ v ∈ crossedEntry.at u, v < 3 ∧ u ∈ crossedEntryPredecessors.at v := by
    decide
  have hback : ∀ v < 3, ∀ u ∈ crossedEntryPredecessors.at v, v ∈ crossedEntry.at u := by
    decide
  refine ⟨⟨by decide, fun u v hv => (hlt u (Adjacency.lt_of_mem_at hv) v hv).1⟩, fun u v => ?_⟩
  exact ⟨fun hu => hback v (Adjacency.lt_of_mem_at hu) u hu,
    fun hv => (hlt u (Adjacency.lt_of_mem_at hv) v hv).2⟩

theorem crossedEntry_connected : crossedEntry.Connected := by
  intro v hv
  match v with
  | 0 => exact .refl
  | 1 => exact .single (show 1 ∈ crossedEntry.at 0 by decide)
  | 2 => exact .single (show 2 ∈ crossedEntry.at 0 by decide)
  | v + 3 => exact absurd hv (by simp [crossedEntry])

/-- Neither of the two dominates the other. -/
theorem immediateDominators_exact_crossedEntry :
    immediateDominators crossedEntry crossedEntryPredecessors = some [0, 0, 0]
      ∧ ¬ Dominates crossedEntry.Edge 0 1 2 ∧ ImmediatelyDominates crossedEntry.Edge 0 0 2 := by
  obtain ⟨idom, hidom, -, himmediate, hintervals⟩ :=
    immediateDominators_exact crossedEntry_lists crossedEntry_connected
  have hrun : immediateDominators crossedEntry crossedEntryPredecessors = some [0, 0, 0] := by
    decide
  rw [hrun, Option.some.injEq] at hidom
  subst hidom
  refine ⟨hrun, ?_, (himmediate 2 (by decide) (by decide) 0).mpr rfl⟩
  rw [← hintervals 1 (by decide) 2 (by decide)]
  decide

end Zryna.Ir.ControlFlow
