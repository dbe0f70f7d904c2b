import Mathlib.Data.List.Basic

/-!
# Checks that report

A checker walks its input, records what is wrong with it, and carries on. This file models
such a checker as a computation that returns a value together with the list of *events* it
recorded, in order. An event is either an ordinary finding (`Event.push`) or a hard limit
(`Event.limit`), after which nothing further is retained.

The bounded collector that turns events into the retained findings belongs to the checker that
uses this file. What is generic is the notion of a clean run, `Report.Clean`: no event at all.
A clean run of a composite is a clean run of its parts, so a soundness proof reads the checks
back one by one with the `simp` lemmas below.
-/

namespace Zryna

open List

/-- One event recorded by a check. -/
inductive Event (δ : Type) where
  | push (finding : δ)
  | limit (finding : δ)
deriving DecidableEq

/-- A value together with the events recorded while computing it. -/
structure Report (δ α : Type) where
  value : α
  events : List (Event δ)

namespace Report

variable {δ α β : Type}

instance : Monad (Report δ) where
  pure a := ⟨a, []⟩
  bind m f := ⟨(f m.value).value, m.events ++ (f m.value).events⟩

instance : LawfulMonad (Report δ) :=
  LawfulMonad.mk' _ (fun _ => by simp [Functor.map]) (fun _ _ => by simp [pure, bind])
    (fun _ _ _ => by simp [bind])

/-- Record an ordinary finding. -/
def push (d : δ) : Report δ Unit := ⟨(), [.push d]⟩

/-- Record a hard limit. -/
def limit (d : δ) : Report δ Unit := ⟨(), [.limit d]⟩

/-- Record `d` when the condition `c` holds. -/
def pushIf (c : Prop) [Decidable c] (d : δ) : Report δ Unit :=
  if c then push d else pure ()

/-- Record the limit `d` when the condition `c` holds. -/
def limitIf (c : Prop) [Decidable c] (d : δ) : Report δ Unit :=
  if c then limit d else pure ()

/-- The run recorded no event. -/
def Clean (m : Report δ α) : Prop := m.events = []

/-- Every event of the run is a hard limit. -/
def LimitsOnly (m : Report δ α) : Prop := ∀ e ∈ m.events, ∃ d, e = .limit d

instance (m : Report δ α) : Decidable m.Clean :=
  decidable_of_iff (m.events.isEmpty = true) (by simp [Clean])

@[simp] theorem value_pure (a : α) : (pure a : Report δ α).value = a := rfl

@[simp] theorem value_bind (m : Report δ α) (f : α → Report δ β) :
    (m >>= f).value = (f m.value).value := rfl

@[simp] theorem events_pure (a : α) : (pure a : Report δ α).events = [] := rfl

@[simp] theorem events_bind (m : Report δ α) (f : α → Report δ β) :
    (m >>= f).events = m.events ++ (f m.value).events := rfl

@[simp] theorem value_map (g : α → β) (m : Report δ α) : (g <$> m).value = g m.value := rfl

@[simp] theorem events_map (g : α → β) (m : Report δ α) : (g <$> m).events = m.events := by
  simp [Functor.map]

variable {e : Event δ} {xs : List α} {c : Prop} {d : δ} {f : β → α → Report δ β}

/-- The events of a loop are the events of its rounds. -/
theorem mem_events_forM {f : α → Report δ PUnit} :
    e ∈ (forM xs f).events ↔ ∃ x ∈ xs, e ∈ (f x).events := by
  induction xs with
  | nil => simp
  | cons x xs ih => simp [forM_cons, ih]

theorem mem_events_pushIf [Decidable c] : e ∈ (pushIf c d).events ↔ c ∧ e = .push d := by
  unfold pushIf
  split <;> simp [push, *]

theorem mem_events_limitIf [Decidable c] : e ∈ (limitIf c d).events ↔ c ∧ e = .limit d := by
  unfold limitIf
  split <;> simp [limit, *]

/-! ### Clean runs -/

@[simp] theorem clean_pure (a : α) : (pure a : Report δ α).Clean := rfl

@[simp] theorem clean_bind (m : Report δ α) (f : α → Report δ β) :
    (m >>= f).Clean ↔ m.Clean ∧ (f m.value).Clean := by
  simp [Clean]

@[simp] theorem clean_map (g : α → β) (m : Report δ α) : (g <$> m).Clean ↔ m.Clean := by
  simp [Clean]

@[simp] theorem not_clean_push (d : δ) : ¬ (push d).Clean := by simp [Clean, push]

@[simp] theorem not_clean_limit (d : δ) : ¬ (limit d).Clean := by simp [Clean, limit]

@[simp] theorem clean_pushIf (c : Prop) [Decidable c] (d : δ) :
    (pushIf c d).Clean ↔ ¬ c := by
  unfold pushIf; split <;> simp [*]

@[simp] theorem clean_limitIf (c : Prop) [Decidable c] (d : δ) :
    (limitIf c d).Clean ↔ ¬ c := by
  unfold limitIf; split <;> simp [*]

/-- A clean loop is a loop all of whose rounds are clean. -/
@[simp] theorem clean_forM (xs : List α) (f : α → Report δ PUnit) :
    (forM xs f).Clean ↔ ∀ x ∈ xs, (f x).Clean := by
  induction xs with
  | nil => simp
  | cons x xs ih => simp [forM_cons, ih]

/-- A fold whose rounds are clean independently of the accumulator. -/
theorem clean_foldlM {P : α → Prop} (xs : List α) (h : ∀ b, ∀ x ∈ xs, (f b x).Clean ↔ P x) (b : β) :
    (xs.foldlM f b).Clean ↔ ∀ x ∈ xs, P x := by
  induction xs generalizing b with
  | nil => simp
  | cons x xs ih =>
    rw [foldlM_cons, clean_bind, h b x (by simp),
      ih (fun b y hy => h b y (by simp [hy])) _]
    simp

/-- Every round of a clean fold is clean. -/
theorem Clean.of_mem_foldlM {b : β}
    (h : (xs.foldlM f b).Clean) {x : α} (hx : x ∈ xs) : ∃ b, (f b x).Clean := by
  induction xs generalizing b with
  | nil => simp at hx
  | cons y xs ih =>
    rw [foldlM_cons, clean_bind] at h
    obtain rfl | hx := mem_cons.mp hx
    · exact ⟨b, h.1⟩
    · exact ih h.2 hx

/-- The value of a fold whose rounds compute `g`. -/
theorem value_foldlM {g : β → α → β} (xs : List α)
    (h : ∀ b, ∀ x ∈ xs, (f b x).value = g b x) (b : β) : (xs.foldlM f b).value = xs.foldl g b := by
  induction xs generalizing b with
  | nil => rfl
  | cons x xs ih =>
    rw [foldlM_cons, value_bind, ih (fun b y hy => h b y (by simp [hy])) _,
      h b x (by simp), foldl_cons]

/-- A loop that appends what each round returns. -/
theorem value_foldlM_append {γ : Type} (f : α → Report δ (List γ)) (xs : List α) (acc : List γ) :
    (xs.foldlM (fun acc x => do let more ← f x; pure (acc ++ more)) acc).value
      = acc ++ xs.flatMap fun x => (f x).value := by
  induction xs generalizing acc with
  | nil => simp
  | cons x xs ih =>
    rw [foldlM_cons, value_bind, ih]
    simp

@[simp] theorem clean_foldlM_append {γ : Type} (f : α → Report δ (List γ)) (xs : List α)
    (acc : List γ) :
    (xs.foldlM (fun acc x => do let more ← f x; pure (acc ++ more)) acc).Clean
      ↔ ∀ x ∈ xs, (f x).Clean :=
  clean_foldlM xs (fun _ _ _ => by simp) acc

@[simp] theorem clean_mapM (f : α → Report δ β) (xs : List α) :
    (xs.mapM f).Clean ↔ ∀ x ∈ xs, (f x).Clean := by
  induction xs with
  | nil => simp
  | cons x xs ih => simp [ih]

@[simp] theorem value_mapM (f : α → Report δ β) (xs : List α) :
    (xs.mapM f).value = xs.map fun x => (f x).value := by
  induction xs with
  | nil => simp
  | cons x xs ih => simp [ih]

/-! ### Runs that record limits only -/

@[simp] theorem limitsOnly_pure (a : α) : (pure a : Report δ α).LimitsOnly := by
  simp [LimitsOnly]

theorem LimitsOnly.bind {m : Report δ α} {f : α → Report δ β}
    (hm : m.LimitsOnly) (hf : (f m.value).LimitsOnly) : (m >>= f).LimitsOnly := by
  intro e he
  rcases mem_append.mp he with h | h
  · exact hm e h
  · exact hf e h

@[simp] theorem limitsOnly_limit (d : δ) : (limit d).LimitsOnly := by
  simp [LimitsOnly, limit]

@[simp] theorem limitsOnly_limitIf (c : Prop) [Decidable c] (d : δ) :
    (limitIf c d).LimitsOnly := by
  unfold limitIf; split <;> simp

theorem LimitsOnly.foldlM
    (h : ∀ b, ∀ x ∈ xs, (f b x).LimitsOnly) (b : β) : (xs.foldlM f b).LimitsOnly := by
  induction xs generalizing b with
  | nil => simp
  | cons x xs ih =>
    rw [foldlM_cons]
    exact (h b x (by simp)).bind (ih (fun b y hy => h b y (by simp [hy])) _)

end Report

end Zryna
