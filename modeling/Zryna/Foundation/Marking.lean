import Mathlib.Data.List.Basic

/-!
# Marking what is reachable

A worklist over the nodes `0 ..< n` of a graph: take a node from the list, and if it is not marked
yet, mark it and add its children. Nodes outside the range are skipped.

The loop ends with exactly the nodes that are `Reached` from its seeds, whatever the order in which
it takes them (`mem_markFrom`).
-/

namespace Zryna

open List

/-- A new mark leaves one node less to mark. -/
theorem count_set_true {marks : List Bool} {v : ℕ} (h : marks[v]? = some false) :
    (marks.set v true).count false + 1 = marks.count false := by
  obtain ⟨hv, hget⟩ := List.getElem?_eq_some_iff.mp h
  have hpos : 0 < marks.count false := count_pos_iff.mpr (hget ▸ getElem_mem hv)
  rw [count_set hv, hget]
  have hset : marks.count false - 1 + 1 = marks.count false := by omega
  simpa using hset

/-- The marking loop. Every round marks a node or shortens the list. -/
def markFrom (children : ℕ → List ℕ) (marks : List Bool) (pending : List ℕ) : List Bool :=
  match pending with
  | [] => marks
  | v :: pending =>
    if marks[v]? = some false then markFrom children (marks.set v true) (children v ++ pending)
    else markFrom children marks pending
termination_by (marks.count false, pending.length)
decreasing_by
  · next h => exact .left _ _ (by have := count_set_true h; omega)
  · exact .right _ (by simp)

/-- The nodes below `n` that are reachable from a seed through nodes below `n`. -/
inductive Reached (children : ℕ → List ℕ) (n : ℕ) (seeds : ℕ → Prop) : ℕ → Prop
  | seed {v : ℕ} (hv : seeds v) (hlt : v < n) : Reached children n seeds v
  | child {u v : ℕ} (hu : Reached children n seeds u) (hv : v ∈ children u) (hlt : v < n) :
      Reached children n seeds v

theorem Reached.lt {children : ℕ → List ℕ} {n : ℕ} {seeds : ℕ → Prop} {v : ℕ}
    (h : Reached children n seeds v) : v < n := by
  cases h <;> assumption

/-- A map of nodes that keeps seeds, children and the range keeps what is reached. -/
theorem Reached.map {children children' : ℕ → List ℕ} {n n' : ℕ} {seeds seeds' : ℕ → Prop}
    {f : ℕ → ℕ} (hseeds : ∀ v, seeds v → seeds' (f v))
    (hchildren : ∀ u v, u < n → v ∈ children u → f v ∈ children' (f u))
    (hlt : ∀ v < n, f v < n') {v : ℕ} (h : Reached children n seeds v) :
    Reached children' n' seeds' (f v) := by
  induction h with
  | seed hv hn => exact .seed (hseeds _ hv) (hlt _ hn)
  | child hu hv hn ih => exact .child ih (hchildren _ _ hu.lt hv) (hlt _ hn)

section Loop

variable {children : ℕ → List ℕ}

section

variable (marks : List Bool) (pending : List ℕ)

@[simp] theorem length_markFrom :
    (markFrom children marks pending).length = marks.length := by
  induction marks, pending using markFrom.induct children with
  | case1 marks => rw [markFrom]
  | case2 marks v pending h ih => rw [markFrom, if_pos h, ih, length_set]
  | case3 marks v pending h ih => rw [markFrom, if_neg h, ih]

theorem getElem?_set_true {marks : List Bool} {v u : ℕ} (hv : v < marks.length) :
    (marks.set v true)[u]? = some true ↔ u = v ∨ marks[u]? = some true := by
  rw [getElem?_set]
  by_cases huv : v = u
  · subst huv
    simp [hv]
  · simp [huv, Ne.symm huv]

/-- Marks are placed on nodes of a set that holds the marked and the pending nodes and is closed
under children. -/
theorem markFrom_sound {P : ℕ → Prop} (hmarks : ∀ u : ℕ, marks[u]? = some true → P u)
    (hpending : ∀ u ∈ pending, u < marks.length → P u)
    (hchildren : ∀ u v, P u → v ∈ children u → v < marks.length → P v) {v : ℕ}
    (h : (markFrom children marks pending)[v]? = some true) : P v := by
  induction marks, pending using markFrom.induct children with
  | case1 marks =>
    rw [markFrom] at h
    exact hmarks v h
  | case2 marks u pending hu ih =>
    rw [markFrom, if_pos hu] at h
    have hlt : u < marks.length := (List.getElem?_eq_some_iff.mp hu).1
    have hP : P u := hpending u (by simp) hlt
    rw [length_set] at ih
    refine ih (fun w hw => ?_) (fun w hw hlt' => ?_) hchildren h
    · obtain rfl | hw := (getElem?_set_true hlt).mp hw
      · exact hP
      · exact hmarks w hw
    · obtain hw | hw := mem_append.mp hw
      · exact hchildren u w hP hw hlt'
      · exact hpending w (by simp [hw]) hlt'
  | case3 marks u pending hu ih =>
    rw [markFrom, if_neg hu] at h
    exact ih hmarks (fun w hw => hpending w (by simp [hw])) hchildren h

/-- The loop keeps marks, marks what is pending, and ends with marks that are closed under
children. -/
theorem markFrom_complete
    (hclosed : ∀ u v : ℕ, marks[u]? = some true → v ∈ children u → v < marks.length →
      marks[v]? = some true ∨ v ∈ pending) :
    (∀ u : ℕ, marks[u]? = some true → (markFrom children marks pending)[u]? = some true)
    ∧ (∀ u ∈ pending, u < marks.length → (markFrom children marks pending)[u]? = some true)
    ∧ ∀ u v : ℕ, (markFrom children marks pending)[u]? = some true → v ∈ children u →
      v < marks.length → (markFrom children marks pending)[v]? = some true := by
  induction marks, pending using markFrom.induct children with
  | case1 marks =>
    rw [markFrom]
    exact ⟨fun u hu => hu, fun u hu => by simp at hu,
      fun u v hu hv hlt => (hclosed u v hu hv hlt).resolve_right (by simp)⟩
  | case2 marks u pending hu ih =>
    rw [markFrom, if_pos hu]
    have hlt : u < marks.length := (List.getElem?_eq_some_iff.mp hu).1
    rw [length_set] at ih
    obtain ⟨hkept, hpending, hchildren⟩ := ih fun w v hw hv hlt' => by
      rw [getElem?_set_true hlt] at hw ⊢
      obtain rfl | hw := hw
      · exact .inr (by simp [hv])
      · obtain h | h := hclosed w v hw hv hlt'
        · exact .inl (.inr h)
        · obtain rfl | h := mem_cons.mp h
          · exact .inl (.inl rfl)
          · exact .inr (by simp [h])
    refine ⟨fun w hw => hkept w ((getElem?_set_true hlt).mpr (.inr hw)), fun w hw hlt' => ?_,
      hchildren⟩
    obtain rfl | hw := mem_cons.mp hw
    · exact hkept w ((getElem?_set_true hlt).mpr (.inl rfl))
    · exact hpending w (by simp [hw]) hlt'
  | case3 marks u pending hu ih =>
    rw [markFrom, if_neg hu]
    have hmarked (hlt : u < marks.length) : marks[u]? = some true := by
      rw [getElem?_eq_getElem hlt, Option.some.injEq] at hu ⊢
      simpa using hu
    obtain ⟨hkept, hpending, hchildren⟩ := ih fun w v hw hv hlt => by
      obtain h | h := hclosed w v hw hv hlt
      · exact .inl h
      · obtain rfl | h := mem_cons.mp h
        · exact .inl (hmarked hlt)
        · exact .inr h
    refine ⟨hkept, fun w hw hlt => ?_, hchildren⟩
    obtain rfl | hw := mem_cons.mp hw
    · exact hkept w (hmarked hlt)
    · exact hpending w hw hlt

end

/-- The loop marks what is reached from its seeds, in whatever order it takes them. -/
theorem mem_markFrom (n : ℕ) (pending : List ℕ) (v : ℕ) :
    (markFrom children (List.replicate n false) pending)[v]? = some true ↔
      Reached children n (· ∈ pending) v := by
  have hnone (u : ℕ) : (List.replicate n false)[u]? ≠ some true := by
    rw [getElem?_replicate]
    split <;> simp
  constructor
  · refine markFrom_sound _ _ (fun u hu => absurd hu (hnone u)) (fun u hu hlt => ?_)
      (fun u w hu hw hlt => ?_)
    · exact .seed hu (by simpa using hlt)
    · exact .child hu hw (by simpa using hlt)
  · intro h
    obtain ⟨-, hpending, hchildren⟩ :=
      markFrom_complete (List.replicate n false) pending
        fun u _ hu => absurd hu (hnone u)
    rw [length_replicate] at hpending hchildren
    induction h with
    | seed hv hlt => exact hpending _ hv hlt
    | child _ hv hlt ih => exact hchildren _ _ (ih hpending hchildren) hv hlt

end Loop

end Zryna
