import Mathlib.Data.List.Basic

/-!
# Traversals that keep the first arrival

A worklist traversal of a finite graph carries a value along its edges. The first value that arrives
at a node is recorded there and the node is queued; the node is expanded with that value once, and
its expansion yields further arrivals. Which queued node comes next is up to the traversal.

`Arrives` is the reference: the values that reach a node along some path. A round of a traversal is
described by `Recorded`, which says that a list of arrivals has been taken in and that each of them
*agrees* with what was recorded before. A traversal all of whose rounds do that is `Explored`, and
once its queue is empty, `Explored.recorded_of_arrives` says that every path delivers the recorded
value, so that arrival is functional.
-/

namespace Zryna.FirstArrival

open List

variable {α : Type}

/-- The value recorded for a node. -/
def recorded (entries : List (Option α)) (node : ℕ) : Option α := (entries[node]?).join

/-- The nodes without a value. -/
def unvisited (entries : List (Option α)) : ℕ := entries.countP Option.isNone

/-- What a traversal knows and what it has still to expand. -/
structure State (α : Type) where
  entries : List (Option α)
  queue : List ℕ

/-- A bound on the rounds that are left: a node enters the queue when it gets its value. -/
def State.budget (s : State α) : ℕ := unvisited s.entries + s.queue.length

/-- The values that some path from `start` delivers to a node. -/
inductive Arrives (arrivals : ℕ → α → List (ℕ × α)) (start : ℕ) (initial : α) : ℕ → α → Prop where
  | start : Arrives arrivals start initial start initial
  | step {node target : ℕ} {a b : α} : Arrives arrivals start initial node a →
      (target, b) ∈ arrivals node a → Arrives arrivals start initial target b

/-! ### Taking in arrivals -/

/-- The arrivals have been taken in, and each of them is what is recorded at its target. -/
structure Recorded (arrivals : List (ℕ × α)) (s s' : State α) : Prop where
  keep : ∀ n a, recorded s.entries n = some a → recorded s'.entries n = some a
  arrived : ∀ p ∈ arrivals, recorded s'.entries p.1 = some p.2
  queue_subset : ∀ n ∈ s.queue, n ∈ s'.queue
  fresh : ∀ n a, recorded s'.entries n = some a →
    recorded s.entries n = some a ∨ n ∈ s'.queue ∧ (n, a) ∈ arrivals
  queued : ∀ n ∈ s'.queue, n ∈ s.queue ∨ ∃ a, recorded s'.entries n = some a
  budget_le : s'.budget ≤ s.budget
  length_eq : s'.entries.length = s.entries.length

variable {entries : List (Option α)} {target count : ℕ}

theorem recorded_set_self (b : α)
    (h : target < entries.length) : recorded (entries.set target (some b)) target = some b := by
  simp [recorded, h]

theorem recorded_set_ne {n : ℕ} (b : α) (h : n ≠ target) :
    recorded (entries.set target (some b)) n = recorded entries n := by
  simp [recorded, getElem?_set_ne (Ne.symm h)]

/-- Only the start has a value before a traversal begins. -/
theorem recorded_initial {start n : ℕ} {initial a : α}
    (h : recorded ((List.replicate count none).set start (some initial)) n = some a) :
    n = start ∧ initial = a := by
  have hlt : n < count := by
    by_contra hge
    simp [recorded, hge] at h
  by_cases hne : n = start
  · subst hne
    rw [recorded_set_self _ (by simpa using hlt)] at h
    exact ⟨rfl, by simpa using h⟩
  · rw [recorded_set_ne _ hne] at h
    simp [recorded, hlt] at h

theorem unvisited_set (b : α)
    (h : target < entries.length) (hnone : recorded entries target = none) :
    unvisited (entries.set target (some b)) + 1 = unvisited entries := by
  have hget : entries[target] = none := by
    simpa [recorded, getElem?_eq_getElem h] using hnone
  have hpos : 0 < entries.countP Option.isNone :=
    countP_pos_iff.mpr ⟨entries[target], getElem_mem h, by simp [hget]⟩
  simp only [unvisited, countP_set h, hget, Option.isNone_none, if_true, Option.isNone_some,
    Bool.false_eq_true, if_false]
  omega

namespace Recorded

variable {arrivals more : List (ℕ × α)} {s s' s'' : State α}

theorem refl (s : State α) : Recorded [] s s where
  keep := fun _ _ h => h
  arrived := by simp
  queue_subset := fun _ h => h
  fresh := fun _ _ h => .inl h
  queued := fun _ h => .inl h
  budget_le := Nat.le_refl _
  length_eq := rfl

theorem trans (h : Recorded arrivals s s') (h' : Recorded more s' s'') :
    Recorded (arrivals ++ more) s s'' where
  keep := fun n a hn => h'.keep n a (h.keep n a hn)
  arrived := by
    intro p hp
    obtain hp | hp := mem_append.mp hp
    · exact h'.keep _ _ (h.arrived p hp)
    · exact h'.arrived p hp
  queue_subset := fun n hn => h'.queue_subset n (h.queue_subset n hn)
  fresh := by
    intro n a hn
    obtain hn | ⟨hq, hn⟩ := h'.fresh n a hn
    · obtain hn | ⟨hq, hn⟩ := h.fresh n a hn
      · exact .inl hn
      · exact .inr ⟨h'.queue_subset n hq, mem_append_left _ hn⟩
    · exact .inr ⟨hq, mem_append_right _ hn⟩
  queued := by
    intro n hn
    obtain hn | hn := h'.queued n hn
    · obtain hn | ⟨a, ha⟩ := h.queued n hn
      · exact .inl hn
      · exact .inr ⟨a, h'.keep n a ha⟩
    · exact .inr hn
  budget_le := Nat.le_trans h'.budget_le h.budget_le
  length_eq := h'.length_eq.trans h.length_eq

variable {target : ℕ}

/-- An arrival that agrees with what is recorded changes nothing. -/
theorem known {b : α} (h : recorded s.entries target = some b) : Recorded [(target, b)] s s :=
  { refl s with
    arrived := by simpa using h
    fresh := fun _ _ hn => .inl hn }

theorem first {queue : List ℕ} (b : α) (hlt : target < s.entries.length)
    (hnone : recorded s.entries target = none)
    (hmem : ∀ n, n ∈ queue ↔ n = target ∨ n ∈ s.queue) (hlen : queue.length ≤ s.queue.length + 1) :
    Recorded [(target, b)] s ⟨s.entries.set target (some b), queue⟩ where
  keep := by
    intro n a hn
    have hne : n ≠ target := by
      rintro rfl
      simp [hnone] at hn
    rw [recorded_set_ne b hne]
    exact hn
  arrived := by simpa using recorded_set_self b hlt
  queue_subset := fun n hn => (hmem n).mpr (.inr hn)
  fresh := by
    intro n a hn
    by_cases hne : n = target
    · subst hne
      rw [recorded_set_self b hlt] at hn
      exact .inr ⟨(hmem n).mpr (.inl rfl), by simpa using hn.symm⟩
    · rw [recorded_set_ne b hne] at hn
      exact .inl hn
  queued := by
    intro n hn
    obtain rfl | hn := (hmem n).mp hn
    · exact .inr ⟨b, recorded_set_self b hlt⟩
    · exact .inl hn
  budget_le := by
    have := unvisited_set b hlt hnone
    simp only [State.budget]
    omega
  length_eq := by simp

end Recorded

/-! ### Whole traversals -/

/-- What holds between the rounds of a traversal: recorded values have arrived, and the arrivals of
every node that is no longer queued are recorded. -/
structure Explored (arrivals : ℕ → α → List (ℕ × α)) (start : ℕ) (initial : α) (s : State α) :
    Prop where
  start_eq : recorded s.entries start = some initial
  queued : ∀ n ∈ s.queue, ∃ a, recorded s.entries n = some a
  sound : ∀ n a, recorded s.entries n = some a → Arrives arrivals start initial n a
  expanded : ∀ n a, recorded s.entries n = some a →
    n ∈ s.queue ∨ ∀ p ∈ arrivals n a, recorded s.entries p.1 = some p.2

namespace Explored

variable {arrivals : ℕ → α → List (ℕ × α)} {start : ℕ} {initial : α} {s s' : State α}

/-- Before the first round only the start is known. -/
theorem initial_state {count : ℕ} (h : start < count) :
    Explored arrivals start initial
      ⟨(List.replicate count none).set start (some initial), [start]⟩ := by
  have hself : recorded ((List.replicate count none).set start (some initial)) start
      = some initial := recorded_set_self _ (by simpa using h)
  refine ⟨hself, ?_, ?_, ?_⟩
  · intro n hn
    obtain rfl : n = start := by simpa using hn
    exact ⟨_, hself⟩
  · intro n a hn
    obtain ⟨rfl, rfl⟩ := recorded_initial hn
    exact .start
  · intro n a hn
    exact .inl (by simp [(recorded_initial hn).1])

variable {a : α} {n : ℕ} {queue : List ℕ}

/-- One round expands the node it takes off the queue. -/
theorem round (h : Explored arrivals start initial s)
    (hqueue : s.queue = n :: queue) (hn : recorded s.entries n = some a)
    (hstep : Recorded (arrivals n a) { s with queue := queue } s') :
    Explored arrivals start initial s' where
  start_eq := hstep.keep _ _ h.start_eq
  queued := by
    intro m hm
    obtain hm | hm := hstep.queued m hm
    · obtain ⟨b, hb⟩ := h.queued m (by rw [hqueue]; exact mem_cons_of_mem _ hm)
      exact ⟨b, hstep.keep m b hb⟩
    · exact hm
  sound := by
    intro m b hm
    obtain hm | ⟨-, hm⟩ := hstep.fresh m b hm
    · exact h.sound m b hm
    · exact .step (h.sound n a hn) hm
  expanded := by
    intro m b hm
    obtain hm | ⟨hq, -⟩ := hstep.fresh m b hm
    · -- an old node is the one just expanded, still queued, or expanded before
      obtain hq | hall := h.expanded m b hm
      · rw [hqueue] at hq
        obtain rfl | hq := mem_cons.mp hq
        · obtain rfl : a = b := by simpa [hn] using hm
          exact .inr hstep.arrived
        · exact .inl (hstep.queue_subset m hq)
      · exact .inr fun p hp => hstep.keep _ _ (hall p hp)
    · exact .inl hq

/-- The budget decreases with every round. -/
theorem budget_lt {taken : List (ℕ × α)} (hqueue : s.queue = n :: queue)
    (hstep : Recorded taken { s with queue := queue } s') : s'.budget < s.budget := by
  have h := hstep.budget_le
  simp only [State.budget, hqueue, length_cons] at h ⊢
  omega

/-- A traversal whose queue is empty has recorded what every path delivers. -/
theorem recorded_of_arrives (h : Explored arrivals start initial s) (hqueue : s.queue = [])
    (harrives : Arrives arrivals start initial n a) : recorded s.entries n = some a := by
  induction harrives with
  | start => exact h.start_eq
  | step _ hmem ih =>
    obtain hq | hall := h.expanded _ _ ih
    · simp [hqueue] at hq
    · exact hall _ hmem

end Explored

/-- The budget before the first round is the number of nodes. -/
theorem budget_initial_state {start : ℕ} (initial : α) (h : start < count) :
    (State.budget ⟨(List.replicate count none).set start (some initial), [start]⟩) = count := by
  have hnone : recorded (List.replicate count (none : Option α)) start = none := by
    simp [recorded, h]
  have := unvisited_set initial (by simpa using h) hnone
  simp only [unvisited, countP_replicate, Option.isNone_none, if_true] at this
  simp only [State.budget, unvisited, length_cons, length_nil]
  omega

end Zryna.FirstArrival
