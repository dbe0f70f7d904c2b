import Mathlib.Data.List.Fold
import Zryna.Layout.Recursion
import Zryna.Layout.Universe

/-!
# By-value recursion is rejected

`StoredIn` is the by-value relation of a list of nodes. Over the canonical nodes of an admitted
graph, `rejectByValueCycles` reports a cycle exactly when the relation has one, and reports a simple
one through the least type of the least component. Where it reports nothing, the depths that it has
computed fall along the relation, so chains are short. The recursion that computes the records then
only ever enters a type from types above it: it meets no type whose computation has begun, and finds
the records of all children.
-/

namespace Zryna.Layout.Aggregate

open Raw Relation Checked Report List Option

/-! ### Depths -/

section Depth

variable {adjacency : List (List ℕ)}

/-- Depths that fall from a type to what it stores. -/
structure DepthsFall (adjacency : List (List ℕ)) (done : List ℕ) (depth : ℕ → ℕ) : Prop where
  pos : ∀ u, 1 ≤ depth u
  le : ∀ u ∈ done, depth u ≤ maxTraversalDepth
  falls : ∀ u ∈ done, ∀ v, Stores adjacency u v → depth v < depth u

variable {depth : ℕ → ℕ} {done chain order : List ℕ} {node : ℕ}

/-- One more type, when what it stores was done before. -/
theorem DepthsFall.visit (h : DepthsFall adjacency done depth) (hnew : node ∉ done)
    (hclean : (visitDepth adjacency depth node).Clean)
    (hchildren : ∀ v, Stores adjacency node v → v ∈ done)
    (hclosed : ∀ u ∈ done, ∀ v, Stores adjacency u v → v ∈ done) :
    DepthsFall adjacency (done ++ [node]) (visitDepth adjacency depth node).value := by
  simp only [visitDepth, clean_bind, clean_limitIf, clean_pure, and_true,
    not_lt, gt_iff_lt] at hclean
  simp only [visitDepth, value_bind, value_pure]
  have hother {v : ℕ} (hv : v ∈ done) : v ≠ node := by
    rintro rfl
    exact hnew hv
  refine ⟨fun u => ?_, fun u hu => ?_, fun u hu v huv => ?_⟩
  · split
    · exact Nat.le_add_left 1 _
    · exact h.pos u
  · obtain hu | hu := mem_append.mp hu
    · rw [if_neg (hother hu)]
      exact h.le u hu
    · rw [if_pos (mem_singleton.mp hu)]
      exact hclean
  · obtain hu | hu := mem_append.mp hu
    · rw [if_neg (hother hu), if_neg (hother (hclosed u hu v huv))]
      exact h.falls u hu v huv
    · obtain rfl := mem_singleton.mp hu
      rw [if_pos rfl, if_neg (hother (hchildren v huv))]
      rw [foldl_eq_foldr]
      exact Nat.lt_succ_of_le (le_max_of_le' 0 (mem_map_of_mem huv) le_rfl)

/-- Without cycles, children come before their parents in the finishing order. -/
theorem FinishOrder.child_mem {rest : List ℕ} {child : ℕ}
    (h : FinishOrder adjacency (done ++ node :: rest))
    (hacyclic : ∀ u, ¬ TransGen (Stores adjacency) u u) (hchild : Stores adjacency node child) :
    child ∈ done := by
  obtain ⟨before, after, heq, hmem⟩ := (h.listed node (by simp)).before hacyclic hchild
  have hnodup := h.nodup
  rw [heq] at hnodup
  have hsplit := nodup_middle.mp hnodup
  rw [nodup_cons, mem_append, not_or] at hsplit
  have hsame := (append_cons_inj_of_notMem hsplit.1.1 hsplit.1.2).mp heq.symm
  exact hsame.1 ▸ hmem

/-- **The depth pass.** Without cycles, a pass that reports nothing has computed depths that fall
along the relation. -/
theorem depthsFall_of_clean (hrange : ChildrenInRange adjacency)
    (hacyclic : ∀ u, ¬ TransGen (Stores adjacency) u u)
    (hclean : ((graphFinishOrder adjacency).foldlM (visitDepth adjacency) fun _ => 1).Clean) :
    ∃ depth, DepthsFall adjacency (graphFinishOrder adjacency) depth := by
  have horder := finishOrder_graph hrange
  have hfold (done rest : List ℕ) (depth : ℕ → ℕ) (heq : graphFinishOrder adjacency = done ++ rest)
      (hclean : (rest.foldlM (visitDepth adjacency) depth).Clean)
      (h : DepthsFall adjacency done depth) :
      ∃ depth', DepthsFall adjacency (graphFinishOrder adjacency) depth' := by
    induction rest generalizing done depth with
    | nil =>
      rw [append_nil] at heq
      exact ⟨depth, heq ▸ h⟩
    | cons node rest ih =>
      rw [foldlM_cons, clean_bind] at hclean
      have horder' : FinishOrder adjacency (done ++ node :: rest) := heq ▸ horder
      have hnew : node ∉ done := fun hin =>
        (nodup_append.mp horder'.nodup).2.2 node hin node mem_cons_self rfl
      have hclosed : ∀ u ∈ done, ∀ v, Stores adjacency u v → v ∈ done := by
        intro u hu v huv
        obtain ⟨front, back, rfl⟩ := append_of_mem hu
        have hfront : FinishOrder adjacency (front ++ u :: (back ++ node :: rest)) := by
          simpa using horder'
        exact mem_append_left _ (hfront.child_mem hacyclic huv)
      refine ih (done ++ [node]) _ (by rw [heq]; simp) hclean.2 ?_
      exact h.visit hnew hclean.1 (fun v hv => horder'.child_mem hacyclic hv) hclosed
  exact hfold [] _ _ rfl hclean ⟨fun _ => le_rfl, by simp, by simp⟩

variable (h : DepthsFall adjacency order depth) (horder : ∀ v < adjacency.length, v ∈ order)

include h horder

theorem DepthsFall.chain_le
    {u : ℕ} (hchain : (u :: chain).IsChain (Stores adjacency)) : (u :: chain).length ≤ depth u := by
  induction chain generalizing u with
  | nil => exact h.pos u
  | cons v chain ih =>
    rw [isChain_cons_cons] at hchain
    calc (u :: v :: chain).length = (v :: chain).length + 1 := rfl
      _ ≤ depth v + 1 := Nat.succ_le_succ (ih hchain.2)
      _ ≤ depth u := h.falls u (horder u hchain.1.lt) v hchain.1

theorem DepthsFall.length_le
    (hchain : chain.IsChain (Stores adjacency)) : chain.length ≤ maxTraversalDepth := by
  match chain, hchain with
  | [], _ => exact Nat.zero_le _
  | [u], _ => exact show 1 ≤ maxTraversalDepth by decide
  | u :: v :: chain, hchain =>
    have hu := (isChain_cons_cons.mp hchain).1.lt
    exact (h.chain_le horder hchain).trans (h.le u (horder u hu))

end Depth

/-! ### The pass -/

section Pass

variable {types : List TypeNode}

/-- The type at `u` stores the type at `v` by value: in a field, a payload or as an element. -/
def StoredIn (types : List TypeNode) (u v : ℕ) : Prop :=
  ∃ node, types[u]? = some node ∧ v ∈ node.kind.byValueChildren

theorem stores_canonicalAdjacency : Stores (canonicalAdjacency types) = StoredIn types := by
  ext u v
  simp only [Stores, StoredIn, childrenOf, canonicalAdjacency, getD_eq_getElem?_getD,
    getElem?_map]
  cases hnode : types[u]? with
  | none => simp
  | some node => simp

theorem length_canonicalAdjacency : (canonicalAdjacency types).length = types.length :=
  length_map _

theorem childrenInRange_canonicalAdjacency (hrange : ∀ u v, StoredIn types u v → v < types.length) :
    ChildrenInRange (canonicalAdjacency types) := by
  intro u v huv
  rw [length_canonicalAdjacency]
  exact hrange u v (stores_canonicalAdjacency ▸ huv)

/-- What is reported for a cycle. -/
def recursionError (cycle : List ℕ) : Diagnostic :=
  globalError "ZRYNA-L3002" s!"by-value recursive layout through canonical TypeIds {cycle}"
    "place recursive ownership behind Vec, Shared, or Weak"

/-- The first of sorted lists is the least. -/
theorem head?_mergeSort {xs : List (List ℕ)} {x : List ℕ}
    (h : (xs.mergeSort (· ≤ ·)).head? = some x) : x ∈ xs ∧ ∀ y ∈ xs, x ≤ y := by
  obtain ⟨rest, hsorted⟩ := head?_eq_some_iff.mp h
  have hpairwise : (xs.mergeSort (· ≤ ·)).Pairwise (· ≤ ·) := by
    refine (pairwise_mergeSort ?_ ?_ xs).imp fun h => by simpa using h
    · simpa using fun a b c => le_trans
    · simpa using le_total
  have hmem (y : List ℕ) : y ∈ xs ↔ y ∈ x :: rest := by
    rw [← hsorted, mem_mergeSort]
  rw [hsorted] at hpairwise
  refine ⟨(hmem x).mpr mem_cons_self, fun y hy => ?_⟩
  obtain rfl | hy := mem_cons.mp ((hmem y).mp hy)
  · exact le_rfl
  · exact (pairwise_cons.mp hpairwise).1 y hy

variable (hrange : ∀ u v, StoredIn types u v → v < types.length)

include hrange

/-- With a cycle, the pass reports a simple one, through the least type of the least component. -/
theorem events_rejectByValueCycles (hcycle : ∃ u, TransGen (StoredIn types) u u) :
    ∃ component start cycle, CyclicComponent (StoredIn types) component
      ∧ (∀ other, CyclicComponent (StoredIn types) other → component ≤ other)
      ∧ component.head? = some start ∧ SimpleCycle (StoredIn types) start cycle
      ∧ (rejectByValueCycles types).events = [.push (recursionError cycle)] := by
  have hrange' := childrenInRange_canonicalAdjacency hrange
  have hmem := mem_cyclicComponents hrange'
  have hspec {component : List ℕ} := @deterministicComponentCycle_spec _ component hrange'
  rw [stores_canonicalAdjacency] at hmem hspec
  unfold rejectByValueCycles
  dsimp only
  cases hhead : ((cyclicComponents (canonicalAdjacency types)).mergeSort (· ≤ ·)).head? with
  | none =>
    -- a type on a cycle has a component
    obtain ⟨u, hu⟩ := hcycle
    rw [← stores_canonicalAdjacency] at hu
    obtain ⟨component, hcomponent, -⟩ := exists_cyclicComponent hrange' hu
    rw [head?_eq_none_iff] at hhead
    have hnil : cyclicComponents (canonicalAdjacency types) = [] :=
      length_eq_zero_iff.mp (by rw [← length_mergeSort, hhead]; rfl)
    rw [hnil] at hcomponent
    cases hcomponent
  | some component =>
    obtain ⟨hin, hleast⟩ := head?_mergeSort hhead
    have hcomponent := (hmem component).mp hin
    obtain ⟨start, hstart, hsimple⟩ := hspec hcomponent
    exact ⟨component, start, _, hcomponent, fun other hother =>
      hleast other ((hmem other).mpr hother), hstart, hsimple, rfl⟩

/-- Without cycles, the pass reports limits only. -/
theorem limitsOnly_rejectByValueCycles (hacyclic : ∀ u, ¬ TransGen (StoredIn types) u u) :
    (rejectByValueCycles types).LimitsOnly
      ∧ ((rejectByValueCycles types).Clean → ∃ depth,
        DepthsFall (canonicalAdjacency types) (graphFinishOrder (canonicalAdjacency types)) depth) := by
  have hrange' := childrenInRange_canonicalAdjacency hrange
  have hnone : ((cyclicComponents (canonicalAdjacency types)).mergeSort (· ≤ ·)).head? = none := by
    rw [head?_eq_none_iff, eq_nil_iff_forall_not_mem]
    intro component hin
    rw [mem_mergeSort, mem_cyclicComponents hrange', stores_canonicalAdjacency] at hin
    obtain ⟨u, hu⟩ := exists_mem_of_ne_nil _ hin.nonempty
    exact hacyclic u (hin.cyclic u hu)
  rw [← stores_canonicalAdjacency] at hacyclic
  unfold rejectByValueCycles
  dsimp only
  rw [hnone]
  refine ⟨(LimitsOnly.foldlM (fun depth node _ => ?_) _).bind (by simp), fun hclean => ?_⟩
  · exact (limitsOnly_limitIf _ _).bind (by simp)
  · exact depthsFall_of_clean hrange' hacyclic ((clean_bind _ _).mp hclean).1

end Pass

/-! ### The recursion -/

section Recursion

variable {types : List TypeNode} {universeIdentity : List ℕ} {target : StorageTarget}

/-- The calls of `computeOne` that a call leads to, itself among them. -/
inductive Calls (types : List TypeNode) (universeIdentity : List ℕ) (target : StorageTarget) :
    ℕ → ℕ → RecordState → ℕ → RecordState → Prop
  | self (fuel i : ℕ) (st : RecordState) : Calls types universeIdentity target fuel i st i st
  | nested {fuel i child j : ℕ} {st mid st' : RecordState} {node : TypeNode} {before after : List ℕ}
    (hfirst : ¬ ((st.records i).isSome ∨ st.visiting i)) (hnode : types[i]? = some node)
    (hsplit : node.kind.byValueChildren = before ++ child :: after)
    (hbefore : before.foldlM (fun st child => computeOne types universeIdentity target fuel child st)
      (st.visit i true) = .done mid)
    (h : Calls types universeIdentity target fuel child mid j st') :
    Calls types universeIdentity target (fuel + 1) i st j st'

/-- The calls that `computeRecords` leads to. -/
def RecordCalls (types : List TypeNode) (universeIdentity : List ℕ) (target : StorageTarget)
    (j : ℕ) (st : RecordState) : Prop :=
  ∃ before root after entered, List.range types.length = before ++ root :: after
    ∧ before.foldlM (fun st index => computeOne types universeIdentity target (types.length + 1)
      index st) ⟨fun _ => none, fun _ => false, []⟩ = .done entered
    ∧ Calls types universeIdentity target (types.length + 1) root entered j st

/-- The types whose computation has begun store the one that is computed. -/
def Above (types : List TypeNode) (i : ℕ) (st : RecordState) : Prop :=
  ∀ k, st.visiting k = true → TransGen (StoredIn types) k i

theorem Above.not_visiting {i : ℕ} {st : RecordState} (h : Above types i st)
    (hacyclic : ∀ u, ¬ TransGen (StoredIn types) u u) : st.visiting i = false :=
  Bool.eq_false_iff.mpr fun hi => hacyclic i (h i hi)

theorem Above.enter {i child : ℕ} {st mid : RecordState} (h : Above types i st)
    (hmid : mid.visiting = (st.visit i true).visiting) (hchild : StoredIn types i child) :
    Above types child mid := by
  intro k hk
  rw [hmid] at hk
  by_cases hki : k = i
  · exact hki ▸ .single hchild
  · refine (h k ?_).tail hchild
    simpa [RecordState.visit, Function.update_of_ne hki] using hk

variable {fuel : ℕ} {st' : RecordState}

theorem Calls.above {i j : ℕ} {st : RecordState}
    (h : Calls types universeIdentity target fuel i st j st') (habove : Above types i st) :
    Above types j st' := by
  induction h with
  | self => exact habove
  | nested _ hnode hsplit hbefore _ ih =>
    have hvisiting := (Outcome.foldlM_rel Computes.refl .trans (computeOne_computes _) hbefore).visiting
    refine ih (habove.enter hvisiting ⟨_, hnode, ?_⟩)
    rw [hsplit]
    simp

/-- A call keeps records and diagnostics. -/
structure Keeps (st st' : RecordState) : Prop where
  records : ∀ k, (st.records k).isSome → (st'.records k).isSome
  diagnostics : st'.diagnostics = [] → st.diagnostics = []

theorem Keeps.refl (st : RecordState) : Keeps st st := ⟨fun _ => id, id⟩

theorem Keeps.trans {st st'' : RecordState} (h : Keeps st st') (h' : Keeps st' st'') :
    Keeps st st'' :=
  ⟨fun k hk => h'.records k (h.records k hk), fun hnil => h.diagnostics (h'.diagnostics hnil)⟩

theorem keeps_settle {i : ℕ} {span : Option Span} {result : Except RecordFailure LayoutRecord}
    {st : RecordState} (h : st.settle i span result = .done st') : Keeps st st' := by
  have hreport (diagnostic : Diagnostic) : Keeps st (st.report diagnostic) :=
    ⟨fun _ => id, fun hnil => absurd hnil (by simp [RecordState.report])⟩
  unfold RecordState.settle at h
  split at h
  · split at h
    · cases h
      exact hreport _
    · cases h
      refine ⟨fun k hk => ?_, id⟩
      by_cases hki : k = i
      · subst hki
        simp [RecordState.store]
      · simpa [RecordState.store, Function.update_of_ne hki] using hk
  · cases h
    exact hreport _
  · cases h
    exact .refl _
  · cases h

theorem computeOne_keeps (fuel i : ℕ) (st st' : RecordState)
    (h : computeOne types universeIdentity target fuel i st = .done st') : Keeps st st' := by
  induction fuel generalizing i st st' with
  | zero => cases h
  | succ fuel ih =>
    unfold computeOne at h
    split at h
    · cases h
      exact .refl st
    split at h
    · cases h
    obtain ⟨mid, hmid, h⟩ := Outcome.bind_eq_done.mp h
    have hchildren : Keeps st mid :=
      (show Keeps st (st.visit i true) from ⟨fun _ => id, id⟩).trans (Outcome.foldlM_rel Keeps.refl .trans ih hmid)
    split at h
    · cases h
      exact ⟨hchildren.records, hchildren.diagnostics⟩
    · obtain ⟨settled, hsettled, h⟩ := Outcome.bind_eq_done.mp h
      cases h
      have hall := hchildren.trans (keeps_settle hsettled)
      exact ⟨hall.records, hall.diagnostics⟩

/-! #### No panic -/

def RecordFailure.IsReport (failure : RecordFailure) : Prop :=
  ∃ diagnostic, failure = .reported diagnostic

theorem errorsIn_orOverflow (span : Option Span) (label : String) (value : Option ℕ) :
    ErrorsIn RecordFailure.IsReport (orOverflow span label value) := by
  cases value with
  | none => exact .error ⟨_, rfl⟩
  | some value => exact .ok value

theorem errorsIn_placeField (records : ℕ → Option LayoutRecord) (span : Option Span)
    (st : StructState) (field : Field) :
    ErrorsIn RecordFailure.IsReport (placeField records span st field) := by
  unfold placeField
  split
  · exact .error ⟨_, rfl⟩
  · refine (errorsIn_orOverflow _ _ _).bind fun offset _ => ?_
    refine (errorsIn_orOverflow _ _ _).bind fun next _ => ?_
    exact .ite (fun _ => .error ⟨_, rfl⟩) fun _ => .ok _

/-- The record of a node whose children have records is there, or a diagnostic says why not. -/
theorem errorsIn_recordOf {records : ℕ → Option LayoutRecord} {i : ℕ} {node : TypeNode}
    (hborrow : ∀ referent, node.kind ≠ .borrow referent)
    (hchildren : ∀ child ∈ node.kind.byValueChildren, (records child).isSome) :
    ErrorsIn RecordFailure.IsReport
      (recordOf universeIdentity target records i node) := by
  obtain ⟨id, span, kind⟩ := node
  unfold recordOf
  dsimp only at hborrow hchildren ⊢
  cases kind with
  | bool | i32 | string | shared | weak => exact .ok _
  | borrow referent => exact absurd rfl (hborrow referent)
  | vec element => exact .ite (fun _ => .error ⟨_, rfl⟩) fun _ => .ok _
  | struct module declaration fields =>
    refine ErrorsIn.bind ?_ fun st _ => ?_
    · exact .foldlM fun _ field _ st _ _ => errorsIn_placeField records span st field
    · exact (errorsIn_orOverflow _ _ _).bind fun size _ => .ok _
  | enum module declaration variants =>
    refine ErrorsIn.bind (.foldlM fun before variant after st heq _ => ?_) fun st _ => ?_
    · unfold placeVariant
      split
      · exact .ok _
      · next payload hpayload =>
        obtain ⟨child, hchild⟩ := isSome_iff_exists.mp (hchildren payload
          (mem_filterMap.mpr ⟨variant, by rw [heq]; simp, hpayload⟩))
        rw [hchild]
        exact .ok _
    · refine (errorsIn_orOverflow _ _ _).bind fun payloadOffset _ => ?_
      refine (errorsIn_orOverflow _ _ _).bind fun stop _ => ?_
      refine (errorsIn_orOverflow _ _ _).bind fun size _ => ?_
      exact .ite (fun _ => .error ⟨_, rfl⟩) fun _ => .ok _
  | fixedArray element length =>
    obtain ⟨child, hchild⟩ :=
      isSome_iff_exists.mp (hchildren element (mem_singleton_self element))
    simp only [hchild]
    refine (errorsIn_orOverflow _ _ _).bind fun stride _ => ?_
    refine (errorsIn_orOverflow _ _ _).bind fun size _ => ?_
    exact .ite (fun _ => .error ⟨_, rfl⟩) fun _ => .ok _

/-- A type is settled with a record or a diagnostic. -/
theorem settle_spec {i : ℕ} {span : Option Span} {st : RecordState}
    {result : Except RecordFailure LayoutRecord} (h : ErrorsIn RecordFailure.IsReport result) :
    ∃ st', st.settle i span result = .done st'
      ∧ (st'.diagnostics = [] → (st'.records i).isSome) := by
  have hreport (diagnostic : Diagnostic) : (st.report diagnostic).diagnostics = [] →
      ((st.report diagnostic).records i).isSome := fun hnil =>
    absurd hnil (by simp [RecordState.report])
  cases result with
  | error failure =>
    obtain ⟨diagnostic, rfl⟩ := h failure rfl
    exact ⟨_, rfl, hreport diagnostic⟩
  | ok record =>
    unfold RecordState.settle
    dsimp only
    split
    · exact ⟨_, rfl, hreport _⟩
    · exact ⟨_, rfl, fun _ => by simp [RecordState.store]⟩

variable (hrange : ∀ u v, StoredIn types u v → v < types.length)
  (hacyclic : ∀ u, ¬ TransGen (StoredIn types) u u)
  (hborrow : ∀ node ∈ types, ∀ referent, node.kind ≠ .borrow referent)
include hrange hacyclic hborrow

/-- **Nothing panics.** A call from above does not fail, and unless something is reported, the type
has a record afterwards. -/
theorem computeOne_ne_fault {i : ℕ} {st : RecordState} (hi : i < types.length)
    (habove : Above types i st) :
    computeOne types universeIdentity target fuel i st ≠ .fault ()
      ∧ ∀ st', computeOne types universeIdentity target fuel i st = .done st' →
        st'.diagnostics = [] → (st'.records i).isSome := by
  induction fuel generalizing i st with
  | zero => exact ⟨by simp [computeOne], by simp [computeOne]⟩
  | succ fuel ih =>
    have hvisiting := habove.not_visiting hacyclic
    unfold computeOne
    by_cases hdone : (st.records i).isSome
    · rw [if_pos (.inl hdone)]
      refine ⟨by simp, fun st' h _ => ?_⟩
      cases h
      exact hdone
    rw [if_neg (by simp [hdone, hvisiting]), getElem?_eq_getElem hi]
    dsimp only
    have hnode : types[i]? = some types[i] := getElem?_eq_getElem hi
    have hchild {child : ℕ} (h : child ∈ types[i].kind.byValueChildren) : StoredIn types i child :=
      ⟨_, hnode, h⟩
    -- every child is computed from above, and keeps its record while the others are computed
    have hfold (children : List ℕ) (hsub : ∀ child ∈ children, child ∈ types[i].kind.byValueChildren)
        (entered : RecordState) (hentered : entered.visiting = (st.visit i true).visiting) :
        children.foldlM (fun st child => computeOne types universeIdentity target fuel child st)
            entered ≠ .fault ()
          ∧ ∀ mid, children.foldlM (fun st child =>
              computeOne types universeIdentity target fuel child st) entered = .done mid →
            mid.diagnostics = [] → ∀ child ∈ children, (mid.records child).isSome := by
      induction children generalizing entered with
      | nil => exact ⟨by simp, by simp⟩
      | cons child children ihChildren =>
        obtain ⟨hin, hsub⟩ := forall_mem_cons.mp hsub
        obtain ⟨hone, hrecord⟩ := @ih child entered (hrange i child (hchild hin))
          (habove.enter hentered (hchild hin))
        rw [foldlM_cons]
        refine ⟨fun hfault => ?_, fun mid hmid hnil c hc => ?_⟩
        · obtain hfault | ⟨next, hnext, hfault⟩ := Outcome.bind_eq_fault.mp hfault
          · exact hone hfault
          · have hsame := (computeOne_computes _ _ _ _ hnext).visiting.trans hentered
            exact (ihChildren hsub next hsame).1 hfault
        · obtain ⟨next, hnext, hmid⟩ := Outcome.bind_eq_done.mp hmid
          have hsame := (computeOne_computes _ _ _ _ hnext).visiting.trans hentered
          have hkeeps := Outcome.foldlM_rel Keeps.refl .trans (computeOne_keeps fuel) hmid
          obtain rfl | hc := mem_cons.mp hc
          · exact hkeeps.records _ (hrecord next hnext (hkeeps.diagnostics hnil))
          · exact (ihChildren hsub next hsame).2 mid hmid hnil c hc
    obtain ⟨hnofault, hrecords⟩ := hfold _ (fun _ => id) (st.visit i true) rfl
    refine ⟨fun hfault => ?_, fun st' h hnil => ?_⟩
    · obtain hfault | ⟨mid, hmid, hrest⟩ := Outcome.bind_eq_fault.mp hfault
      · exact hnofault hfault
      split at hrest
      · cases hrest
      next hclean =>
      obtain ⟨settled, hsettled, -⟩ := @settle_spec i types[i].span mid _
        (@errorsIn_recordOf universeIdentity target mid.records i types[i]
          (hborrow _ (getElem_mem hi)) (hrecords mid hmid (not_not.mp hclean)))
      rw [hsettled] at hrest
      cases hrest
    · obtain ⟨mid, hmid, hrest⟩ := Outcome.bind_eq_done.mp h
      split at hrest
      · next hdirty =>
        cases hrest
        exact absurd hnil hdirty
      next hclean =>
      obtain ⟨settled, hsettled, hrecord⟩ := @settle_spec i types[i].span mid _
        (@errorsIn_recordOf universeIdentity target mid.records i types[i]
          (hborrow _ (getElem_mem hi)) (hrecords mid hmid (not_not.mp hclean)))
      rw [hsettled] at hrest
      cases hrest
      exact hrecord hnil

/-- No call meets a type whose computation has begun, and the pass returns. -/
theorem computeRecords_acyclic :
    (∀ j st, RecordCalls types universeIdentity target j st → st.visiting j = false)
      ∧ ∃ result, computeRecords types universeIdentity target = .done result := by
  -- between two calls of the pass, no computation has begun
  have hroot {st : RecordState} (h : ∀ k, st.visiting k = false) (i : ℕ) : Above types i st :=
    fun k hk => by simp [h k] at hk
  constructor
  · rintro j st ⟨before, root, after, entered, -, hentered, hcalls⟩
    have hvisiting :=
      (Outcome.foldlM_rel Computes.refl .trans (computeOne_computes _) hentered).visiting
    exact (hcalls.above (hroot (fun k => by rw [hvisiting]) root)).not_visiting hacyclic
  have hfold (order : List ℕ) (horder : ∀ i ∈ order, i < types.length) (st : RecordState)
      (hst : ∀ k, st.visiting k = false) :
      order.foldlM (fun st index => computeOne types universeIdentity target (types.length + 1)
        index st) st ≠ .fault () := by
    induction order generalizing st with
    | nil => simp
    | cons i order ih =>
      obtain ⟨hi, horder⟩ := forall_mem_cons.mp horder
      rw [foldlM_cons]
      intro hfault
      obtain hfault | ⟨next, hnext, hfault⟩ := Outcome.bind_eq_fault.mp hfault
      · exact (computeOne_ne_fault hrange hacyclic hborrow hi (hroot hst i)).1 hfault
      · refine ih horder next (fun k => ?_) hfault
        rw [(computeOne_computes _ _ _ _ hnext).visiting]
        exact hst k
  cases hresult : computeRecords types universeIdentity target with
  | timeout => exact absurd hresult computeRecords_ne_timeout
  | done result => exact ⟨result, rfl⟩
  | fault =>
    unfold computeRecords at hresult
    obtain hfault | ⟨st, -, hrest⟩ := Outcome.bind_eq_fault.mp hresult
    · exact absurd hfault (hfold _ (fun i => mem_range.mp) _ fun _ => rfl)
    · split at hrest
      · split at hrest <;> cases hrest
      · cases hrest

end Recursion

/-! ### Accepted graphs -/

section Accepted

variable {graph : Graph} {sources : SourceMap} {keys : List CanonicalKey}

theorem byValueChildren_subset (kind : TypeKind) : kind.byValueChildren ⊆ kind.allChildren := by
  cases kind with
  | struct | enum | fixedArray => exact fun _ => id
  | _ => exact nil_subset _

theorem byValueChildren_rename (f : ℕ → ℕ) (kind : TypeKind) :
    (kind.rename f).byValueChildren = kind.byValueChildren.map f := by
  cases kind <;> simp [TypeKind.rename, TypeKind.byValueChildren, Function.comp_def,
    filterMap_map, map_filterMap]

theorem NumbersFit.allChildren_lt {kind : TypeKind} (h : NumbersFit kind) :
    ∀ child ∈ kind.allChildren, child < noPayloadTypeId := by
  cases kind with
  | bool | i32 | string => simp [TypeKind.allChildren]
  | struct module declaration fields =>
    exact forall_mem_map.mpr fun field hfield => (h.2.2.2 field hfield).2
  | enum module declaration variants =>
    intro child hchild
    obtain ⟨variant, hvariant, hpayload⟩ := mem_filterMap.mp hchild
    exact (h.2.2.2 variant hvariant).2 child hpayload
  | fixedArray element length => simpa [TypeKind.allChildren] using h.1
  | vec element | shared payload | weak payload => exact forall_mem_singleton.mpr h
  | borrow referent => exact h.elim

theorem Admitted.allChildren_lt (h : Admitted graph sources) (hkeyed : Keyed graph keys)
    {node : TypeNode} (hnode : node ∈ graph.types) :
    ∀ child ∈ node.kind.allChildren, child < graph.types.length := by
  intro child hchild
  -- a numbering that no reference beyond the nodes would fit
  let f : ℕ → ℕ := fun i => if i < graph.types.length then 0 else noPayloadTypeId
  have hfits : NumbersFit (node.kind.rename f) :=
    h.numbersFit hnode (hkeyed.keyError_eq_none hnode) fun i hi => by
      rw [show f i = 0 from if_pos hi]
      decide
  have hlt := hfits.allChildren_lt (f child) (by
    rw [TypeKind.allChildren_rename]
    exact mem_map_of_mem hchild)
  by_contra hge
  rw [show f child = noPayloadTypeId from if_neg hge] at hlt
  exact lt_irrefl _ hlt

variable {u v : ℕ}

/-- The nodes of a graph and the types of its universe have one by-value relation. -/
theorem storedIn_canonicalTypes {ordered : List ℕ}
    (hperm : ordered.Perm (List.range graph.types.length)) :
    StoredIn (canonicalTypes graph ordered) u v
      ↔ ∃ i j, ordered[u]? = some i ∧ StoredIn graph.types i j ∧ ordered.idxOf j = v := by
  have htypes := @getElem?_canonicalTypes graph ordered fun i hi =>
    mem_range.mp (hperm.mem_iff.mp hi)
  simp only [StoredIn, htypes, bind_eq_some_iff, map_eq_some_iff]
  constructor
  · rintro ⟨_, ⟨i, hi, node, hnode, rfl⟩, hv⟩
    rw [TypeNode.rename_kind, byValueChildren_rename] at hv
    obtain ⟨j, hj, rfl⟩ := mem_map.mp hv
    exact ⟨i, j, hi, ⟨node, hnode, hj⟩, rfl⟩
  · rintro ⟨i, j, hi, ⟨node, hnode, hj⟩, rfl⟩
    refine ⟨_, ⟨i, hi, node, hnode, rfl⟩, ?_⟩
    rw [TypeNode.rename_kind, byValueChildren_rename]
    exact mem_map_of_mem hj

theorem StoredIn.lt {types : List TypeNode} (h : StoredIn types u v) : u < types.length := by
  obtain ⟨node, hnode, -⟩ := h
  exact (List.getElem?_eq_some_iff.mp hnode).1

/-- **By-value recursion is rejected exactly.** In an admitted graph whose types have identities,
the pass pushes a diagnostic exactly when some node stores itself by value, directly or not. Then
it pushes one, about a simple cycle through the least type of the least cyclic component. Where it
reports nothing, chains by value have at most `maxTraversalDepth` nodes, and the computation of the
records meets no type whose computation has begun and returns: references are types, their
identities fit, and no `expect` fails. -/
theorem byValueRecursion_rejected (sha256 : List ℕ → List ℕ) (graph : Graph) (sources : SourceMap)
    (keys : List CanonicalKey) (canonical : CanonicalMap)
    (hpreflight : (preflight graph sources).Clean)
    (hkeys : passed (canonicalKeys graph) = .done keys)
    (hcanonical : passed (assignTypeIds sha256 graph keys) = .done canonical) :
    ((∃ diagnostic, .push diagnostic ∈ (rejectByValueCycles canonical.types).events)
      ↔ ∃ i, TransGen (StoredIn graph.types) i i)
    ∧ ((∃ i, TransGen (StoredIn graph.types) i i) →
      ∃ component start cycle, CyclicComponent (StoredIn canonical.types) component
        ∧ (∀ other, CyclicComponent (StoredIn canonical.types) other → component ≤ other)
        ∧ component.head? = some start ∧ SimpleCycle (StoredIn canonical.types) start cycle
        ∧ (rejectByValueCycles canonical.types).events = [.push (recursionError cycle)])
    ∧ ((rejectByValueCycles canonical.types).Clean →
      (∀ chain : List ℕ, chain.IsChain (StoredIn graph.types) → chain.length ≤ maxTraversalDepth)
      ∧ canonical.types.length ≤ maxTypeNodes
      ∧ (∀ node ∈ canonical.types, ∀ child ∈ node.kind.allChildren, child < canonical.types.length)
      ∧ ∀ target, (∀ i st, RecordCalls canonical.types canonical.universeIdentity target i st →
          st.visiting i = false)
        ∧ ∃ result, computeRecords canonical.types canonical.universeIdentity target
          = .done result) := by
  have hadmitted := (preflight_clean graph sources).mp hpreflight
  have hkeyed := ((canonicalKeys_eq hadmitted.keyChildrenInRange keys).mp
    (passed_eq_done.mp hkeys)).1
  have htypes := (passed_assignTypeIds hcanonical).1
  have hperm : (orderedNodes keys).Perm (List.range graph.types.length) :=
    hkeyed.length_eq ▸ perm_orderedNodes keys
  generalize orderedNodes keys = ordered at htypes hperm
  have hmem (i : ℕ) : i ∈ ordered ↔ i < graph.types.length := by
    rw [hperm.mem_iff, mem_range]
  have hlength : canonical.types.length = graph.types.length := by
    rw [htypes, length_canonicalTypes fun i hi => (hmem i).mp hi, hperm.length_eq,
      length_range]
  have hstored (u v : ℕ) : StoredIn canonical.types u v
      ↔ ∃ i j, ordered[u]? = some i ∧ StoredIn graph.types i j ∧ ordered.idxOf j = v := by
    rw [htypes]
    exact storedIn_canonicalTypes hperm
  have hchildren : ∀ node ∈ canonical.types, ∀ child ∈ node.kind.allChildren,
      child < canonical.types.length := by
    intro node hnode child hchild
    rw [htypes] at hnode
    obtain ⟨original, horiginal, rfl⟩ := mem_canonicalTypes hnode
    rw [TypeNode.rename_kind, TypeKind.allChildren_rename] at hchild
    obtain ⟨j, hj, rfl⟩ := mem_map.mp hchild
    rw [hlength]
    exact (bijOn_idxOf hperm).mapsTo (hadmitted.allChildren_lt hkeyed horiginal j hj)
  have hrange : ∀ u v, StoredIn canonical.types u v → v < canonical.types.length := by
    rintro u v ⟨node, hnode, hv⟩
    exact hchildren node (mem_of_getElem? hnode) v (byValueChildren_subset _ hv)
  -- the two relations are one up to the numbering
  have hup {i j : ℕ} (h : StoredIn graph.types i j) :
      StoredIn canonical.types (ordered.idxOf i) (ordered.idxOf j) :=
    (hstored _ _).mpr ⟨i, j, getElem?_idxOf ((hmem i).mpr h.lt), h, rfl⟩
  have hdown {u v : ℕ} (h : StoredIn canonical.types u v) :
      StoredIn graph.types (ordered.getD u 0) (ordered.getD v 0) := by
    obtain ⟨i, j, hi, hij, rfl⟩ := (hstored u v).mp h
    obtain ⟨node, hnode, hj⟩ := hij
    have hjlt := hadmitted.allChildren_lt hkeyed (mem_of_getElem? hnode) j
      (byValueChildren_subset _ hj)
    rw [getD_eq_getElem?_getD, getD_eq_getElem?_getD, hi,
      getElem?_idxOf ((hmem j).mpr hjlt)]
    exact ⟨node, hnode, hj⟩
  have hcyclic : (∃ u, TransGen (StoredIn canonical.types) u u)
      ↔ ∃ i, TransGen (StoredIn graph.types) i i :=
    ⟨fun ⟨u, hu⟩ => ⟨_, hu.lift (fun k => ordered.getD k 0) fun _ _ => hdown⟩,
      fun ⟨i, hi⟩ => ⟨_, hi.lift ordered.idxOf fun _ _ => hup⟩⟩
  rw [← hcyclic]
  have hreported := events_rejectByValueCycles hrange
  refine ⟨⟨fun ⟨diagnostic, hpushed⟩ => ?_, fun hcycle => ?_⟩, hreported, fun hclean => ?_⟩
  · by_contra hnone
    obtain ⟨_, heq⟩ := (limitsOnly_rejectByValueCycles hrange (not_exists.mp hnone)).1 _ hpushed
    cases heq
  · obtain ⟨_, _, cycle, -, -, -, -, hevents⟩ := hreported hcycle
    exact ⟨recursionError cycle, hevents ▸ mem_singleton_self _⟩
  · have hacyclic : ∀ u, ¬ TransGen (StoredIn canonical.types) u u := by
      intro u hu
      obtain ⟨_, _, cycle, -, -, -, -, hevents⟩ := hreported ⟨u, hu⟩
      rw [Clean, hevents] at hclean
      cases hclean
    have hborrow : ∀ node ∈ canonical.types, ∀ referent, node.kind ≠ .borrow referent := by
      intro node hnode referent heq
      rw [htypes] at hnode
      obtain ⟨original, horiginal, rfl⟩ := mem_canonicalTypes hnode
      have herror := hkeyed.keyError_eq_none horiginal
      rw [← keyError_rename ordered.idxOf, keyError, heq] at herror
      cases herror
    refine ⟨fun chain hchain => ?_, hlength ▸ hadmitted.types_le, hchildren, fun target =>
      computeRecords_acyclic hrange hacyclic hborrow⟩
    obtain ⟨depth, hdepth⟩ := (limitsOnly_rejectByValueCycles hrange hacyclic).2 hclean
    have horder := finishOrder_graph (childrenInRange_canonicalAdjacency hrange)
    have hmapped : (chain.map ordered.idxOf).IsChain (StoredIn canonical.types) :=
      (isChain_map _).mpr (hchain.imp fun _ _ => hup)
    rw [← stores_canonicalAdjacency] at hmapped
    have hle := hdepth.length_le (fun v hv => (horder.mem_iff v).mpr hv) hmapped
    rwa [length_map] at hle

/-- The records of a `Vec` over a `Vec` over `String` are computed for every target. -/
theorem byValueRecursion_rejected_nestedVecs : ∃ types identity, types.length = 5
    ∧ ∀ target, ∃ result, computeRecords types identity target = .done result := by
  have hheight : 2 + 3 ≤ maxTypeNodes := by decide
  obtain ⟨layouts, hlayouts⟩ := verifyKeyed_nestedVecs (fun _ => []) hheight .linuxX8664V1
  unfold verifyKeyed at hlayouts
  obtain ⟨canonical, hcanonical, hverify⟩ := Outcome.bind_eq_done.mp hlayouts
  have hclean := (verifyCanonical_eq_done.mp hverify).1
  obtain ⟨-, -, hrecords⟩ := byValueRecursion_rejected (fun _ => []) (nestedVecs 2) nestedSources
    (nestedKeys 2) canonical ((preflight_clean _ _).mpr (admitted_nestedVecs hheight))
    (passed_nestedVecs hheight) hcanonical
  obtain ⟨-, -, -, hcomputed⟩ := hrecords hclean
  refine ⟨canonical.types, canonical.universeIdentity, ?_, fun target => (hcomputed target).2⟩
  rw [types_assignTypeIds (passed_eq_done.mp hcanonical).2, length_canonicalTypes,
    (perm_orderedNodes _).length_eq, length_range, length_nestedKeys]
  intro i hi
  rw [length_nestedVecs, ← @length_nestedKeys 2]
  exact mem_range.mp ((perm_orderedNodes _).mem_iff.mp hi)

end Accepted

end Zryna.Layout.Aggregate
