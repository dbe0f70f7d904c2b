import Zryna.Foundation.FinishOrder
import Zryna.Layout.Cycles

/-!
# Components of types that store one another by value

The walks of `rejectByValueCycles`. `graphFinishOrder` is a finishing order of all types
(`finishOrder_graph`), and the second walk collects, in increasing order, exactly the components in
which a type stores itself (`mem_cyclicComponents`). The cycle that is reported for a component is
a simple cycle through its least type (`deterministicComponentCycle_spec`): the walk behind it keeps
on its stack a path from the start, and cannot end before it meets the start again.
-/

namespace Zryna.Layout.Aggregate

open Relation List

section Walk

variable {adjacency : List (List ℕ)}

/-- A type stores another by value. -/
def Stores (adjacency : List (List ℕ)) (u v : ℕ) : Prop := v ∈ childrenOf adjacency u

/-- Children are types. -/
def ChildrenInRange (adjacency : List (List ℕ)) : Prop :=
  ∀ u v, Stores adjacency u v → v < adjacency.length

theorem Stores.lt {u v : ℕ} (h : Stores adjacency u v) : u < adjacency.length := by
  by_contra hge
  rw [Stores, childrenOf, getD_eq_getElem?_getD,
    getElem?_eq_none (Nat.not_lt.mp hge)] at h
  cases h

/-! ### The finishing order -/

/-- The marks as a set. -/
abbrev Marked (marks : List Bool) (v : ℕ) : Prop := marks[v]? = some true

variable {marks : List Bool} {root : ℕ}

theorem marked_set {child : ℕ} (h : marks[child]? = some false) (v : ℕ) :
    Marked (marks.set child true) v ↔ v = child ∨ Marked marks v :=
  getElem?_set_true (List.getElem?_eq_some_iff.mp h).1

theorem not_marked {v : ℕ} (h : marks[v]? = some false) : ¬ Marked marks v := by
  rw [Marked, h]
  decide

theorem marked_of_not {v : ℕ} (hv : v < marks.length)
    (h : ¬ marks[v]? = some false) : Marked marks v := by
  rw [getElem?_eq_getElem hv] at h
  rw [Marked, getElem?_eq_getElem hv]
  cases hm : marks[v] with
  | true => rfl
  | false => exact absurd (congrArg some hm) h

theorem finishLoop_spec (hrange : ChildrenInRange adjacency) (visited : List Bool)
    (stack : List (ℕ × ℕ)) (finish : List ℕ) (hlength : visited.length = adjacency.length)
    (h : FinishWalk (childrenOf adjacency) (Marked visited) stack finish) :
    (finishLoop adjacency visited stack finish).1.length = adjacency.length
      ∧ FinishWalk (childrenOf adjacency)
        (Marked (finishLoop adjacency visited stack finish).1) []
        (finishLoop adjacency visited stack finish).2
      ∧ ∀ v, Marked visited v → Marked (finishLoop adjacency visited stack finish).1 v := by
  fun_induction finishLoop adjacency visited stack finish with
  | case1 visited finish => exact ⟨hlength, h, fun _ => id⟩
  | case2 visited finish node next stack child hnext hnew ih =>
    obtain ⟨hlength', hwalk, hkept⟩ := ih (by rw [length_set, hlength])
      (h.descend hnext (not_marked hnew) (marked_set hnew))
    exact ⟨hlength', hwalk, fun v hv => hkept v ((marked_set hnew v).mpr (.inr hv))⟩
  | case3 visited finish node next stack child hnext hold ih =>
    have hlt : child < visited.length :=
      hlength ▸ hrange node child (mem_of_getElem? hnext)
    exact ih hlength (h.advance hnext (marked_of_not hlt hold))
  | case4 visited finish node next stack hnext ih => exact ih hlength (h.finish hnext)

/-- What `graphFinishOrder` lists. -/
structure FinishOrder (adjacency : List (List ℕ)) (order : List ℕ) : Prop where
  nodup : order.Nodup
  mem_iff : ∀ v, v ∈ order ↔ v < adjacency.length
  listed : ∀ x ∈ order, FinishWalk.Listed (Stores adjacency) order x

theorem foldl_finishLoop (hrange : ChildrenInRange adjacency) (roots : List ℕ) (visited : List Bool)
    (finish : List ℕ) (hlength : visited.length = adjacency.length)
    (h : FinishWalk (childrenOf adjacency) (Marked visited) [] finish) :
    ∃ visited', visited'.length = adjacency.length
      ∧ FinishWalk (childrenOf adjacency) (Marked visited') []
        (roots.foldl (fun (visited, finish) root =>
          if visited[root]? = some false then
            finishLoop adjacency (visited.set root true) [(root, 0)] finish
          else (visited, finish)) (visited, finish)).2
      ∧ (∀ v, Marked visited v → Marked visited' v)
      ∧ ∀ root ∈ roots, root < adjacency.length → Marked visited' root := by
  induction roots generalizing visited finish with
  | nil => exact ⟨visited, hlength, h, fun _ => id, by simp⟩
  | cons root roots ih =>
    rw [foldl_cons]
    by_cases hnew : visited[root]? = some false
    · simp only [hnew, if_true]
      obtain ⟨hlength', hwalk, hkept⟩ := finishLoop_spec hrange (visited.set root true)
        [(root, 0)] finish (by rw [length_set, hlength])
        (h.push (not_marked hnew) (by simp) (marked_set hnew))
      obtain ⟨visited', hlength'', hwalk', hkept', hroots⟩ := ih _ _ hlength' hwalk
      refine ⟨visited', hlength'', hwalk', fun v hv => ?_, fun v hv hlt => ?_⟩
      · exact hkept' v (hkept v ((marked_set hnew v).mpr (.inr hv)))
      · obtain rfl | hv := mem_cons.mp hv
        · exact hkept' v (hkept v ((marked_set hnew v).mpr (.inl rfl)))
        · exact hroots v hv hlt
    · simp only [hnew, if_false]
      obtain ⟨visited', hlength', hwalk, hkept, hroots⟩ := ih _ _ hlength h
      refine ⟨visited', hlength', hwalk, hkept, fun v hv hlt => ?_⟩
      obtain rfl | hv := mem_cons.mp hv
      · exact hkept v (marked_of_not (hlength ▸ hlt) hnew)
      · exact hroots v hv hlt

theorem finishOrder_graph (hrange : ChildrenInRange adjacency) :
    FinishOrder adjacency (graphFinishOrder adjacency) := by
  obtain ⟨visited, hlength, hwalk, -, hroots⟩ := foldl_finishLoop hrange
    (List.range adjacency.length) (List.replicate adjacency.length false) [] (by simp)
    (.empty fun v => by simp [Marked, getElem?_replicate])
  have hmem (v : ℕ) : v ∈ graphFinishOrder adjacency ↔ Marked visited v := by
    rw [hwalk.visited_iff, map_nil, append_nil]
    rfl
  have hnodup := hwalk.nodup
  rw [map_nil, append_nil] at hnodup
  refine ⟨hnodup, fun v => ?_, fun x hx => hwalk.listed_of_done hx⟩
  rw [hmem]
  refine ⟨fun hv => hlength ▸ (List.getElem?_eq_some_iff.mp hv).1, fun hv => ?_⟩
  exact hroots v (mem_range.mpr hv) hv

/-! ### The second walk -/

theorem mem_parentsOf {u v : ℕ} : u ∈ parentsOf adjacency v ↔ Stores adjacency u v := by
  simp only [parentsOf, mem_filter, mem_range, decide_eq_true_eq, Stores]
  exact and_iff_right_of_imp Stores.lt

/-- What pushing the parents of a type does to the marks and the list. -/
theorem pushParents_spec (parents : List ℕ) (assigned : List Bool) (pending : List ℕ)
    (hlt : ∀ p ∈ parents, p < assigned.length) :
    (pushParents parents assigned pending).1.length = assigned.length
      ∧ (∀ v, Marked (pushParents parents assigned pending).1 v ↔ Marked assigned v ∨ v ∈ parents)
      ∧ (∀ v, v ∈ (pushParents parents assigned pending).2
        ↔ v ∈ pending ∨ v ∈ parents ∧ ¬ Marked assigned v)
      ∧ (pending.Nodup → (∀ v ∈ pending, Marked assigned v) →
        (pushParents parents assigned pending).2.Nodup) := by
  unfold pushParents
  induction parents generalizing assigned pending with
  | nil => simpa using fun h _ => h
  | cons p parents ih =>
    obtain ⟨hp, hlt⟩ := forall_mem_cons.mp hlt
    rw [foldl_cons]
    by_cases hnew : assigned[p]? = some false
    · simp only [hnew, if_true]
      obtain ⟨hlength, hmarks, hpending, hnodup⟩ :=
        ih (assigned.set p true) (p :: pending) fun q hq => by
          rw [length_set]
          exact hlt q hq
      refine ⟨by rw [hlength, length_set], fun v => ?_, fun v => ?_, fun h hmarked => ?_⟩
      · rw [hmarks, marked_set hnew, mem_cons]
        tauto
      · rw [hpending, marked_set hnew, mem_cons, mem_cons]
        have hnot := not_marked hnew
        by_cases hv : v = p
        · subst hv
          tauto
        · tauto
      · refine hnodup (nodup_cons.mpr ⟨fun hin => ?_, h⟩) fun v hv => ?_
        · exact not_marked hnew (hmarked p hin)
        · exact (marked_set hnew v).mpr ((mem_cons.mp hv).imp id (hmarked v))
    · simp only [hnew, if_false]
      have hmarked := marked_of_not hp hnew
      obtain ⟨hlength, hmarks, hpending, hnodup⟩ := ih assigned pending hlt
      refine ⟨hlength, fun v => ?_, fun v => ?_, hnodup⟩
      · rw [hmarks, mem_cons]
        refine or_congr_right' fun hnot => ⟨.inr, fun h => h.resolve_left ?_⟩
        rintro rfl
        exact hnot hmarked
      · rw [hpending, mem_cons]
        refine or_congr_right (and_congr_left fun hnot => ⟨.inr, fun h => h.resolve_left ?_⟩)
        rintro rfl
        exact hnot hmarked

/-- What the second walk collects from what it has marked and pushed. -/
theorem componentLoop_spec {before : ℕ → Prop} (assigned : List Bool)
    (pending component : List ℕ) (hlength : assigned.length = adjacency.length)
    (h : Gathering (parentsOf adjacency) before [root] (Marked assigned) pending)
    (hmarks : ∀ v, Marked assigned v ↔ before v ∨ v ∈ component ++ pending)
    (hnew : ∀ v ∈ component ++ pending, ¬ before v) (hnodup : (component ++ pending).Nodup) :
    (componentLoop adjacency assigned pending component).1.length = adjacency.length
      ∧ (∀ v, Marked (componentLoop adjacency assigned pending component).1 v
        ↔ before v ∨ v ∈ (componentLoop adjacency assigned pending component).2)
      ∧ (componentLoop adjacency assigned pending component).2.Nodup
      ∧ ∀ v, v ∈ (componentLoop adjacency assigned pending component).2
        ↔ ReachesStart (parentsOf adjacency) before [root] v ∧ ¬ before v := by
  fun_induction componentLoop adjacency assigned pending component with
  | case1 assigned component =>
    rw [append_nil] at hmarks hnew hnodup
    refine ⟨hlength, hmarks, hnodup, fun v => ?_⟩
    have hseen := (hmarks v).symm.trans h.seen_iff
    exact ⟨fun hv => ⟨(hseen.mp (.inr hv)).resolve_left (hnew v hv), hnew v hv⟩,
      fun ⟨hv, hnot⟩ => (hseen.mpr (.inr hv)).resolve_left hnot⟩
  | case2 assigned component node pending pushed ih =>
    have hparents : ∀ p ∈ (parentsOf adjacency node).reverse, p < assigned.length := fun p hp =>
      hlength ▸ (mem_parentsOf.mp (mem_reverse.mp hp)).lt
    obtain ⟨hlength', hmarks', hpending', hnodup'⟩ :=
      pushParents_spec _ assigned pending hparents
    simp only [mem_reverse] at hmarks' hpending'
    have hmarked {v : ℕ} (hv : v ∈ component ++ node :: pending) : Marked assigned v :=
      (hmarks v).mpr (.inr hv)
    have hmem (v : ℕ) : v ∈ component ++ [node] ++ pushed.2
        ↔ v ∈ component ++ node :: pending ∨ v ∈ parentsOf adjacency node ∧ ¬ Marked assigned v := by
      rw [append_assoc, singleton_append, mem_append, mem_cons, hpending',
        mem_append, mem_cons, or_assoc, or_assoc]
    refine ih (hlength'.trans hlength) (h.step hmarks' hpending') (fun v => ?_) (fun v hv => ?_) ?_
    · rw [hmarks', hmem]
      by_cases hm : Marked assigned v
      · exact iff_of_true (.inl hm) (((hmarks v).mp hm).imp id .inl)
      · rw [or_iff_right hm, or_iff_right fun hbefore => hm ((hmarks v).mpr (.inl hbefore)),
          or_iff_right fun hv => hm (hmarked hv), and_iff_left hm]
    · obtain hv | ⟨-, hv⟩ := (hmem v).mp hv
      · exact hnew v hv
      · exact fun hbefore => hv ((hmarks v).mpr (.inl hbefore))
    · have hsplit : component ++ node :: pending = component ++ [node] ++ pending := by simp
      have hpushed : pushed.2.Nodup := by
        refine hnodup' (nodup_cons.mp (nodup_append.mp hnodup).2.1).2 fun v hv => ?_
        exact hmarked (mem_append_right _ (mem_cons_of_mem _ hv))
      rw [hsplit] at hnodup hmarked
      obtain ⟨hfront, -, hapart⟩ := nodup_append.mp hnodup
      refine nodup_append.mpr ⟨hfront, hpushed, fun a ha b hb => ?_⟩
      obtain hb | ⟨-, hb⟩ := (hpending' b).mp hb
      · exact hapart a ha b hb
      · rintro rfl
        exact hb (hmarked (mem_append_left _ ha))

/-! ### The components -/

/-- The nodes of a graph that reach one another and therefore themselves, in increasing order. -/
structure CyclicComponent (E : ℕ → ℕ → Prop) (component : List ℕ) : Prop where
  pairwise : component.Pairwise (· < ·)
  nonempty : component ≠ []
  linked : ∀ u ∈ component, ∀ v, v ∈ component ↔ Mutual E u v
  cyclic : ∀ u ∈ component, TransGen E u u

/-- A type linked to another one stores itself. -/
theorem transGen_of_mutual {u v : ℕ} (h : Mutual (Stores adjacency) u v) (hne : u ≠ v) :
    TransGen (Stores adjacency) u u := by
  obtain rfl | ⟨w, hstep, hpath⟩ := ReflTransGen.cases_head h.1
  · exact absurd rfl hne
  · exact (TransGen.single hstep).trans_left (hpath.trans h.2)

theorem transGen_mutual {u v : ℕ} (h : Mutual (Stores adjacency) u v)
    (hu : TransGen (Stores adjacency) u u) : TransGen (Stores adjacency) v v :=
  (hu.trans_right h.2).trans_left h.1

variable {component : List ℕ}

/-- A type stores itself when it is one of several linked types or its own child. -/
theorem transGen_iff (hnodup : component.Nodup)
    (hmem : ∀ v, v ∈ component ↔ Mutual (Stores adjacency) root v) :
    (component.length > 1 ∨ root ∈ childrenOf adjacency root)
      ↔ TransGen (Stores adjacency) root root := by
  constructor
  · rintro (hlength | hself)
    · obtain ⟨v, hv, hne⟩ : ∃ v ∈ component, v ≠ root := by
        by_contra hall
        push Not at hall
        have hsub : component.toFinset ⊆ {root} := fun v hv =>
          Finset.mem_singleton.mpr (hall v (mem_toFinset.mp hv))
        have hcard := Finset.card_le_card hsub
        rw [toFinset_card_of_nodup hnodup, Finset.card_singleton] at hcard
        omega
      exact transGen_of_mutual ((hmem v).mp hv) hne.symm
    · exact .single hself
  · intro h
    obtain ⟨w, hstep, hpath⟩ := TransGen.head'_iff.mp h
    by_cases hw : w = root
    · exact .inr (hw ▸ hstep)
    · have hroot := (hmem root).mpr (Mutual.refl root)
      have hwmem := (hmem w).mpr ⟨.single hstep, hpath⟩
      have hsub : ({root, w} : Finset ℕ) ⊆ component.toFinset := by
        intro v hv
        obtain rfl | hv := Finset.mem_insert.mp hv
        · exact mem_toFinset.mpr hroot
        · rw [Finset.mem_singleton.mp hv]
          exact mem_toFinset.mpr hwmem
      have hcard := Finset.card_le_card hsub
      rw [Finset.card_pair (Ne.symm hw), toFinset_card_of_nodup hnodup] at hcard
      exact .inl hcard

/-- What holds after a part of the types, from the last one listed on, was started from. -/
structure ComponentsInv (adjacency : List (List ℕ)) (rest : List ℕ) (assigned : List Bool)
    (cyclic : List (List ℕ)) : Prop where
  length_eq : assigned.length = adjacency.length
  order : ∃ done, FinishOrder adjacency (rest.reverse ++ done) ∧ ∀ v ∈ done, Marked assigned v
  linked : ∀ u v, Marked assigned u → Mutual (Stores adjacency) u v → Marked assigned v
  sound : ∀ c ∈ cyclic, CyclicComponent (Stores adjacency) c
  complete : ∀ v, Marked assigned v → TransGen (Stores adjacency) v v → ∃ c ∈ cyclic, v ∈ c

theorem ComponentsInv.step {rest : List ℕ} {assigned : List Bool}
    {cyclic : List (List ℕ)} (h : ComponentsInv adjacency (root :: rest) assigned cyclic) :
    ComponentsInv adjacency rest (visitComponent adjacency (assigned, cyclic) root).1
      (visitComponent adjacency (assigned, cyclic) root).2 := by
  obtain ⟨done, horder, hdone⟩ := h.order
  have hsplit : (root :: rest).reverse ++ done = rest.reverse ++ root :: done := by simp
  rw [hsplit] at horder
  have hroot : root < adjacency.length := (horder.mem_iff root).mp (by simp)
  unfold visitComponent
  dsimp only
  by_cases hnew : assigned[root]? = some false
  · rw [if_pos hnew]
    have hunmarked := not_marked hnew
    have hgather : Gathering (parentsOf adjacency) (Marked assigned) [root]
        (Marked (assigned.set root true)) [root] := by
      have hmarks : Marked (assigned.set root true) = fun v => Marked assigned v ∨ v ∈ [root] :=
        funext fun v => propext (by rw [marked_set hnew, mem_singleton, or_comm])
      rw [hmarks]
      exact Gathering.start
    obtain ⟨hlength, hmarks, hnodup, hmem⟩ := componentLoop_spec (assigned.set root true) [root] []
      (by rw [length_set, h.length_eq]) hgather
      (fun v => by rw [marked_set hnew, or_comm]; simp)
      (fun v hv => by rw [show v = root by simpa using hv]; exact hunmarked) (by simp)
    generalize componentLoop adjacency (assigned.set root true) [root] [] = gathered
      at hlength hmarks hnodup hmem ⊢
    obtain ⟨assigned', component⟩ := gathered
    dsimp only at hlength hmarks hnodup hmem ⊢
    -- what reaches the root through unassigned types is its component
    have hcomponent (v : ℕ) : v ∈ component ↔ Mutual (Stores adjacency) root v := by
      rw [hmem, FinishWalk.reachesStart_iff horder.nodup horder.listed (fun u v => mem_parentsOf)
        (fun u v huv => (horder.mem_iff u).mpr huv.lt) hdone h.linked hunmarked]
      exact and_iff_left_of_imp fun hv hmarked => hunmarked (h.linked v root hmarked hv.symm)
    have hlinked (u v : ℕ) (hu : Marked assigned' u) (huv : Mutual (Stores adjacency) u v) :
        Marked assigned' v := by
      rw [hmarks, hcomponent] at hu ⊢
      exact hu.imp (fun hu => h.linked u v hu huv) fun hu => hu.trans huv
    have hdone' : ∀ v ∈ root :: done, Marked assigned' v := by
      intro v hv
      obtain rfl | hv := mem_cons.mp hv
      · exact (hmarks v).mpr (.inr ((hcomponent v).mpr (Mutual.refl v)))
      · exact (hmarks v).mpr (.inl (hdone v hv))
    have hiff := transGen_iff hnodup hcomponent
    by_cases hcyclic : component.length > 1 ∨ root ∈ childrenOf adjacency root
    · rw [if_pos hcyclic]
      have hsorted (v : ℕ) : v ∈ component.mergeSort (· ≤ ·) ↔ Mutual (Stores adjacency) root v := by
        rw [mem_mergeSort, hcomponent]
      refine ⟨hlength, ⟨root :: done, horder, hdone'⟩, hlinked, fun c hc => ?_, fun v hv hself => ?_⟩
      · obtain hc | hc := mem_append.mp hc
        · exact h.sound c hc
        rw [mem_singleton.mp hc]
        refine ⟨?_, ?_, fun u hu v => ?_, fun u hu => ?_⟩
        · have hle : (component.mergeSort (· ≤ ·)).Pairwise (· ≤ ·) := by
            refine (pairwise_mergeSort ?_ ?_ _).imp fun h => by simpa using h
            · simpa using fun a b c => le_trans
            · simpa using le_total
          exact (hle.and (nodup_mergeSort.mpr hnodup)).imp fun ⟨hle, hne⟩ =>
            lt_of_le_of_ne hle hne
        · exact ne_nil_of_mem ((hsorted root).mpr (Mutual.refl root))
        · rw [hsorted] at hu ⊢
          exact ⟨hu.symm.trans, hu.trans⟩
        · exact transGen_mutual ((hsorted u).mp hu) (hiff.mp hcyclic)
      · obtain hv | hv := (hmarks v).mp hv
        · obtain ⟨c, hc, hv⟩ := h.complete v hv hself
          exact ⟨c, mem_append_left _ hc, hv⟩
        · exact ⟨_, mem_append_right _ (mem_singleton_self _),
            mem_mergeSort.mpr hv⟩
    · rw [if_neg hcyclic]
      refine ⟨hlength, ⟨root :: done, horder, hdone'⟩, hlinked, h.sound, fun v hv hself => ?_⟩
      obtain hv | hv := (hmarks v).mp hv
      · exact h.complete v hv hself
      · exact absurd (hiff.mpr (transGen_mutual ((hcomponent v).mp hv).symm hself)) hcyclic
  · rw [if_neg hnew]
    refine ⟨h.length_eq, ⟨root :: done, horder, fun v hv => ?_⟩, h.linked, h.sound, h.complete⟩
    obtain rfl | hv := mem_cons.mp hv
    · exact marked_of_not (h.length_eq ▸ hroot) hnew
    · exact hdone v hv

theorem componentsInv_cyclicComponents (hrange : ChildrenInRange adjacency) :
    ∃ assigned, ComponentsInv adjacency [] assigned (cyclicComponents adjacency) := by
  have hfold (rest : List ℕ) (assigned : List Bool) (cyclic : List (List ℕ))
      (h : ComponentsInv adjacency rest assigned cyclic) :
      ∃ assigned', ComponentsInv adjacency [] assigned'
        (rest.foldl (visitComponent adjacency) (assigned, cyclic)).2 := by
    induction rest generalizing assigned cyclic with
    | nil => exact ⟨assigned, h⟩
    | cons root rest ih => exact ih _ _ h.step
  have hnone (v : ℕ) : ¬ Marked (List.replicate adjacency.length false) v := by
    simp [Marked, getElem?_replicate]
  exact hfold (graphFinishOrder adjacency).reverse (List.replicate adjacency.length false) []
    ⟨by simp, ⟨[], by simpa using finishOrder_graph hrange, by simp⟩,
      fun u _ hu => absurd hu (hnone u), by simp, fun v hv => absurd hv (hnone v)⟩

/-- A type that stores itself is in a component. -/
theorem exists_cyclicComponent (hrange : ChildrenInRange adjacency) {u : ℕ}
    (hself : TransGen (Stores adjacency) u u) : ∃ c ∈ cyclicComponents adjacency, u ∈ c := by
  obtain ⟨assigned, h⟩ := componentsInv_cyclicComponents hrange
  obtain ⟨v, hstep, -⟩ := TransGen.head'_iff.mp hself
  obtain ⟨done, hfinal, hdone⟩ := h.order
  refine h.complete u (hdone u ?_) hself
  simpa using (hfinal.mem_iff u).mpr hstep.lt

/-- **The second walk finds the components in which a type stores itself**, each of them. -/
theorem mem_cyclicComponents (hrange : ChildrenInRange adjacency) (component : List ℕ) :
    component ∈ cyclicComponents adjacency ↔ CyclicComponent (Stores adjacency) component := by
  obtain ⟨assigned, h⟩ := componentsInv_cyclicComponents hrange
  refine ⟨h.sound component, fun hcomponent => ?_⟩
  obtain ⟨u, hu⟩ := exists_mem_of_ne_nil _ hcomponent.nonempty
  obtain ⟨c, hc, huc⟩ := exists_cyclicComponent hrange (hcomponent.cyclic u hu)
  -- two components with a common type are one
  suffices heq : c = component from heq ▸ hc
  have hperm : c.Perm component := by
    refine (perm_ext_iff_of_nodup ((h.sound c hc).pairwise.imp ne_of_lt)
      (hcomponent.pairwise.imp ne_of_lt)).mpr fun v => ?_
    rw [(h.sound c hc).linked u huc, hcomponent.linked u hu]
  exact hperm.eq_of_pairwise (fun a b _ _ hab hba => absurd hba (lt_asymm hab))
    (h.sound c hc).pairwise hcomponent.pairwise

/-! ### The reported cycle -/

/-- A cycle of a graph from the start on, each node named once. -/
structure SimpleCycle (E : ℕ → ℕ → Prop) (start : ℕ) (cycle : List ℕ) : Prop where
  head : cycle.head? = some start
  nodup : cycle.Nodup
  chain : cycle.IsChain E
  closes : ∃ last, cycle.getLast? = some last ∧ E last start

theorem SimpleCycle.self {start : ℕ} (h : Stores adjacency start start) :
    SimpleCycle (Stores adjacency) start [start] :=
  ⟨rfl, nodup_singleton start, .singleton start, start, rfl, h⟩

/-- The parents of these types lead from each to the next, and from the last to the start. -/
def Trail (start : ℕ) (parent : ℕ → Option ℕ) : List ℕ → Prop
  | [] => True
  | x :: xs => x ≠ start ∧ parent x = some (xs.headD start) ∧ Trail start parent xs

variable {xs : List ℕ}

theorem Trail.congr {start : ℕ} {parent parent' : ℕ → Option ℕ}
    (h : Trail start parent xs) (hparent : ∀ x ∈ xs, parent' x = parent x) :
    Trail start parent' xs := by
  induction xs with
  | nil => trivial
  | cons x xs ih =>
    obtain ⟨hx, hxs⟩ := forall_mem_cons.mp hparent
    exact ⟨h.1, hx.trans h.2.1, ih h.2.2 hxs⟩

theorem pathTo_eq {start : ℕ} {parent : ℕ → Option ℕ}
    (h : Trail start parent xs) {steps : ℕ} (hsteps : xs.length < steps) (path : List ℕ) :
    pathTo start parent steps (xs.headD start) path = xs.reverse ++ path := by
  induction xs generalizing steps path with
  | nil =>
    obtain ⟨steps, rfl⟩ := Nat.exists_eq_succ_of_ne_zero (Nat.ne_zero_of_lt hsteps)
    rw [pathTo]
    exact if_pos rfl
  | cons x xs ih =>
    obtain ⟨steps, rfl⟩ := Nat.exists_eq_succ_of_ne_zero (Nat.ne_zero_of_lt hsteps)
    obtain ⟨hne, hparent, hrest⟩ := h
    rw [headD_cons, pathTo, if_neg hne, hparent]
    dsimp only
    rw [ih hrest (Nat.lt_of_succ_lt_succ hsteps), reverse_cons, append_assoc]
    rfl

/-- What holds whenever the walk for a cycle looks at its stack: the stack is a path from the start,
and no child inside the component that was looked at is the start. -/
structure CycleWalk (adjacency : List (List ℕ)) (members : List ℕ) (start : ℕ) (visited : List Bool)
    (parent : ℕ → Option ℕ) (stack : List (ℕ × ℕ)) : Prop where
  length_eq : visited.length = adjacency.length
  start_marked : Marked visited start
  stack_marked : ∀ x ∈ stack.map Prod.fst, Marked visited x
  nodup : (stack.map Prod.fst).Nodup
  trail : Trail start parent (stack.map Prod.fst)
  chain : (stack.map Prod.fst ++ [start]).IsChain fun x y => Stores adjacency y x
  partly : ∀ x ∈ stack, ∀ w ∈ (childrenOf adjacency x.1).take x.2, w ∈ members →
    w ≠ start ∧ Marked visited w
  done : ∀ v, Marked visited v → v ≠ start → v ∈ stack.map Prod.fst
    ∨ ∀ w, Stores adjacency v w → w ∈ members → w ≠ start ∧ Marked visited w

namespace CycleWalk

variable {members : List ℕ} {start node next child : ℕ} {visited : List Bool}
  {parent : ℕ → Option ℕ} {stack : List (ℕ × ℕ)}

theorem not_start (h : CycleWalk adjacency members start visited parent stack) {x : ℕ}
    (hx : x ∈ stack.map Prod.fst) : x ≠ start := by
  have htrail := h.trail
  generalize stack.map Prod.fst = xs at hx htrail
  induction xs with
  | nil => cases hx
  | cons y xs ih =>
    obtain rfl | hx := mem_cons.mp hx
    · exact htrail.1
    · exact ih hx htrail.2.2

section

variable (h : CycleWalk adjacency members start visited parent ((node, next) :: stack))

include h

/-- A child that is the start closes a cycle. -/
theorem closes (hclose : Stores adjacency node start) : SimpleCycle (Stores adjacency) start
      (start :: pathTo start parent (adjacency.length + 1) node []) := by
  have hlength : (((node, next) :: stack).map Prod.fst).length < adjacency.length + 1 := by
    have hsub : ((node, next) :: stack).map Prod.fst ⊆ List.range adjacency.length := fun x hx =>
      mem_range.mpr (h.length_eq ▸ (List.getElem?_eq_some_iff.mp (h.stack_marked x hx)).1)
    have hle := (h.nodup.subperm hsub).length_le
    rw [length_range] at hle
    omega
  have hpath := pathTo_eq h.trail hlength []
  have hhead : (((node, next) :: stack).map Prod.fst).headD start = node := rfl
  rw [hhead, append_nil] at hpath
  rw [hpath]
  refine ⟨rfl, nodup_cons.mpr ⟨fun hin => ?_, nodup_reverse.mpr h.nodup⟩, ?_,
    node, ?_, hclose⟩
  · exact h.not_start (mem_reverse.mp hin) rfl
  · have hchain := isChain_reverse.mpr h.chain
    rwa [reverse_append] at hchain
  · rw [map_cons, reverse_cons, ← cons_append, getLast?_concat]

theorem pop (hnext : (childrenOf adjacency node)[next]? = none) :
    CycleWalk adjacency members start visited parent stack := by
  refine ⟨h.length_eq, h.start_marked, fun x hx => h.stack_marked x (mem_cons_of_mem _ hx),
    (nodup_cons.mp h.nodup).2, h.trail.2.2, h.chain.of_cons,
    fun x hx => h.partly x (mem_cons_of_mem _ hx), fun v hv hne => ?_⟩
  obtain hv | hv := h.done v hv hne
  · obtain rfl | hv := mem_cons.mp hv
    · refine .inr fun w hw => h.partly _ mem_cons_self w ?_
      rw [getElem?_eq_none_iff] at hnext
      rwa [take_of_length_le hnext]
    · exact .inl hv
  · exact .inr hv

theorem advance (hnext : (childrenOf adjacency node)[next]? = some child)
    (hchild : child ∈ members → child ≠ start ∧ Marked visited child) :
    CycleWalk adjacency members start visited parent ((node, next + 1) :: stack) := by
  refine ⟨h.length_eq, h.start_marked, h.stack_marked, h.nodup, h.trail, h.chain,
    fun x hx w hw => ?_, h.done⟩
  obtain rfl | hx := mem_cons.mp hx
  · obtain hw | rfl := (mem_take_succ hnext).mp hw
    · exact h.partly (node, next) mem_cons_self w hw
    · exact hchild
  · exact h.partly x (mem_cons_of_mem _ hx) w hw

end

theorem push (h : CycleWalk adjacency members start visited parent stack)
    (hnew : visited[child]? = some false)
    (htop : Stores adjacency ((stack.map Prod.fst).headD start) child) :
    CycleWalk adjacency members start (visited.set child true)
      (fun other => if other = child then some ((stack.map Prod.fst).headD start)
        else parent other) ((child, 0) :: stack) := by
  have hmarks := marked_set hnew
  have hnot := not_marked hnew
  have hkept {v : ℕ} (hv : Marked visited v) : Marked (visited.set child true) v :=
    (hmarks v).mpr (.inr hv)
  have hout : child ∉ stack.map Prod.fst := fun hin => hnot (h.stack_marked child hin)
  refine ⟨by rw [length_set, h.length_eq], hkept h.start_marked, fun x hx => ?_,
    nodup_cons.mpr ⟨hout, h.nodup⟩, ⟨?_, if_pos rfl, h.trail.congr fun x hx => if_neg ?_⟩, ?_,
    fun x hx w hw hmem => ?_, fun v hv hne => ?_⟩
  · exact (hmarks x).mpr ((mem_cons.mp hx).imp id (h.stack_marked x))
  · rintro rfl
    exact hnot h.start_marked
  · rintro rfl
    exact hout hx
  · have hchain := h.chain
    cases stack with
    | nil => simpa using htop
    | cons x stack => exact isChain_cons_cons.mpr ⟨htop, hchain⟩
  · obtain rfl | hx := mem_cons.mp hx
    · simp at hw
    · exact (h.partly x hx w hw hmem).imp_right hkept
  · obtain rfl | hv := (hmarks v).mp hv
    · exact .inl mem_cons_self
    · exact (h.done v hv hne).imp (mem_cons_of_mem _) fun hdone w hw hmem =>
        (hdone w hw hmem).imp_right hkept

theorem descend (h : CycleWalk adjacency members start visited parent ((node, next) :: stack))
    (hnext : (childrenOf adjacency node)[next]? = some child) (hnew : visited[child]? = some false) :
    CycleWalk adjacency members start (visited.set child true)
      (fun other => if other = child then some node else parent other)
      ((child, 0) :: (node, next + 1) :: stack) := by
  have hpushed := h.push hnew (mem_of_getElem? hnext)
  have hne : child ≠ start := by
    rintro rfl
    exact not_marked hnew h.start_marked
  refine ⟨hpushed.length_eq, hpushed.start_marked, hpushed.stack_marked, hpushed.nodup,
    hpushed.trail, hpushed.chain, fun x hx w hw hmem => ?_, hpushed.done⟩
  obtain rfl | hx := mem_cons.mp hx
  · simp at hw
  obtain rfl | hx := mem_cons.mp hx
  · obtain hw | rfl := (mem_take_succ hnext).mp hw
    · exact hpushed.partly (node, next) (by simp) w hw hmem
    · exact ⟨hne, (marked_set hnew w).mpr (.inl rfl)⟩
  · exact hpushed.partly x (by simp [hx]) w hw hmem

end CycleWalk

/-- The walk ends with a simple cycle, or after everything that is reached inside the component
without meeting the start. -/
theorem cycleLoop_spec (hrange : ChildrenInRange adjacency) {members : List ℕ} {start : ℕ}
    (visited : List Bool) (parent : ℕ → Option ℕ) (stack : List (ℕ × ℕ))
    (h : CycleWalk adjacency members start visited parent stack) :
    (∃ cycle, cycleLoop adjacency members start visited parent stack = some cycle
      ∧ SimpleCycle (Stores adjacency) start cycle)
    ∨ ∃ reached : ℕ → Prop, (∀ v, Marked visited v → reached v)
      ∧ ∀ v, reached v → v ≠ start → ∀ w, Stores adjacency v w → w ∈ members →
        w ≠ start ∧ reached w := by
  fun_induction cycleLoop adjacency members start visited parent stack with
  | case1 visited parent =>
    exact .inr ⟨Marked visited, fun _ => id, fun v hv hne =>
      (h.done v hv hne).resolve_left not_mem_nil⟩
  | case2 visited parent node next stack hnext ih => exact ih (h.pop hnext)
  | case3 visited parent node next stack child hnext hclose =>
    refine .inl ⟨_, rfl, h.closes ?_⟩
    exact hclose.2 ▸ mem_of_getElem? hnext
  | case4 visited parent node next stack child hnext _ hnew ih =>
    obtain hfound | ⟨reached, hkept, hclosed⟩ := ih (h.descend hnext hnew.2)
    · exact .inl hfound
    · refine .inr ⟨reached, fun v hv => hkept v ?_, hclosed⟩
      exact (marked_set hnew.2 v).mpr (.inr hv)
  | case5 visited parent node next stack child hnext hclose hnew ih =>
    refine ih (h.advance hnext fun hmem => ⟨fun heq => hclose ⟨hmem, heq⟩, ?_⟩)
    refine marked_of_not ?_ fun hfalse => hnew ⟨hmem, hfalse⟩
    exact h.length_eq ▸ hrange node child (mem_of_getElem? hnext)

/-- **The reported cycle is a simple cycle through the least type of the component.** -/
theorem deterministicComponentCycle_spec (hrange : ChildrenInRange adjacency)
    (h : CyclicComponent (Stores adjacency) component) :
    ∃ start, component.head? = some start
      ∧ SimpleCycle (Stores adjacency) start (deterministicComponentCycle adjacency component) := by
  obtain ⟨start, rest, rfl⟩ := exists_cons_of_ne_nil h.nonempty
  refine ⟨start, rfl, ?_⟩
  unfold deterministicComponentCycle
  rw [headD_cons]
  dsimp only
  by_cases hself : start ∈ childrenOf adjacency start
  · rw [if_pos hself]
    exact .self hself
  rw [if_neg hself]
  -- the start has a child in its component
  obtain ⟨child, hstep, hback⟩ := TransGen.head'_iff.mp (h.cyclic start mem_cons_self)
  have hlinked (v : ℕ) := h.linked start mem_cons_self v
  have hchild : child ∈ (childrenOf adjacency start).filter (· ∈ start :: rest) :=
    mem_filter.mpr ⟨hstep, decide_eq_true ((hlinked child).mpr ⟨.single hstep, hback⟩)⟩
  obtain ⟨first, others, hfilter⟩ := exists_cons_of_ne_nil (ne_nil_of_mem hchild)
  have hfirst : first ∈ (childrenOf adjacency start).filter (· ∈ start :: rest) := by
    rw [hfilter]
    exact mem_cons_self
  obtain ⟨hfirstStep, hmember⟩ := mem_filter.mp hfirst
  have hne : first ≠ start := by
    rintro rfl
    exact hself hfirstStep
  have hmutual := (hlinked first).mp (of_decide_eq_true hmember)
  have hstart : start < adjacency.length := Stores.lt hfirstStep
  have hfirstlt : first < adjacency.length := hrange start first hfirstStep
  rw [hfilter]
  have hfalse {v : ℕ} (hv : v < adjacency.length) :
      (List.replicate adjacency.length false)[v]? = some false := by
    rw [getElem?_replicate, if_pos hv]
  have hmarks := marked_set (hfalse hstart)
  have honly (v : ℕ) (hv : Marked ((List.replicate adjacency.length false).set start true) v) :
      v = start := by
    refine ((hmarks v).mp hv).resolve_right fun hv => ?_
    simp [Marked, getElem?_replicate] at hv
  have hempty : CycleWalk adjacency (start :: rest) start
      ((List.replicate adjacency.length false).set start true) (fun _ => none) [] := by
    refine ⟨by simp, (hmarks start).mpr (.inl rfl), by simp, nodup_nil, trivial,
      .singleton start, by simp, fun v hv hv' => absurd (honly v hv) hv'⟩
  have hnew : ((List.replicate adjacency.length false).set start true)[first]? = some false := by
    rw [getElem?_set_ne hne.symm, hfalse hfirstlt]
  obtain ⟨cycle, hcycle, hsimple⟩ | ⟨reached, hkept, hclosed⟩ :=
    cycleLoop_spec hrange _ _ _ (hempty.push hnew hfirstStep)
  · have hfound : cycleLoop adjacency (start :: rest) start
        (((List.replicate adjacency.length false).set start true).set first true)
        (fun node => if node = first then some start else none) [(first, 0)] = some cycle := hcycle
    rw [findSome?_cons, hfound]
    exact hsimple
  · -- the first child leads back to the start inside the component
    have hpath (v : ℕ) (hv : ReflTransGen (fun u w => Mutual (Stores adjacency) first u
        ∧ Mutual (Stores adjacency) first w ∧ Stores adjacency u w) first v) :
        reached v ∧ v ≠ start := by
      induction hv with
      | refl => exact ⟨hkept first ((marked_set hnew first).mpr (.inl rfl)), hne⟩
      | @tail u w _ hstep ih =>
        obtain ⟨-, hw, hedge⟩ := hstep
        exact (hclosed u ih.1 ih.2 w hedge ((hlinked w).mpr (hmutual.trans hw))).symm
    exact absurd rfl (hpath start hmutual.symm.path).2

end Walk

end Zryna.Layout.Aggregate
