import Mathlib.Data.List.Forall2

/-!
# Checked computations

Rules for code that stops at its first error. `bind_eq_ok` takes a chain of checks apart from the
result it returned, and `foldlM_invariant` is the invariant rule of a loop whose every round may
stop. `ErrorsIn` says which errors a computation may stop with.
-/

namespace Zryna.Checked

open List

variable {ε α β σ : Type}
  {b : β} {f : α → Except ε β} {x : Except ε α} {c : Prop} {xs : List α} {ys : List β}
  {s s' : σ}

@[simp] theorem bind_eq_ok :
    (x >>= f) = .ok b ↔ ∃ a, x = .ok a ∧ f a = .ok b := by
  cases x with
  | error e => simp [bind, Except.bind]
  | ok a => simp [bind, Except.bind]

@[simp] theorem map_eq_ok {f : α → β} :
    (f <$> x) = .ok b ↔ ∃ a, x = .ok a ∧ f a = b := by
  cases x with
  | error e => simp [Functor.map, Except.map]
  | ok a => simp [Functor.map, Except.map]

variable {a : α}

@[simp] theorem pure_eq_ok {b : α} : (pure a : Except ε α) = .ok b ↔ a = b := by
  simp [pure, Except.pure]

theorem mapError_eq_ok {ε' : Type} {f : ε → ε'} : x.mapError f = .ok a ↔ x = .ok a := by
  cases x with
  | error e => simp [Except.mapError]
  | ok b => simp [Except.mapError]

/-- A check that stops the rest. -/
theorem ite_error_eq_ok [Decidable c] {e : ε} {x : Except ε β} :
    (if c then .error e else x) = .ok b ↔ ¬c ∧ x = .ok b := by
  split <;> simp [*]

/-- A check in a sequence of checks. -/
theorem ite_error_bind_eq_ok [Decidable c] {e : ε} {x : Except ε β} :
    (if c then (.error e : Except ε α) >>= f else x) = .ok b ↔ ¬c ∧ x = .ok b := by
  rw [show (.error e : Except ε α) >>= f = .error e from rfl, ite_error_eq_ok]

/-- A loop of checks passes when each of them does. -/
theorem forM_eq_ok {f : α → Except ε PUnit} : xs.forM f = .ok () ↔ ∀ x ∈ xs, f x = .ok () := by
  induction xs with
  | nil => exact iff_of_true rfl (by simp)
  | cons x xs ih =>
    rw [forall_mem_cons, ← ih]
    show (f x >>= fun _ => xs.forM f) = .ok () ↔ _
    rw [bind_eq_ok]
    exact ⟨fun ⟨_, hx, hxs⟩ => ⟨hx, hxs⟩, fun ⟨hx, hxs⟩ => ⟨_, hx, hxs⟩⟩

theorem mapM_eq_ok : xs.mapM f = .ok ys ↔ List.Forall₂ (fun x y => f x = .ok y) xs ys := by
  induction xs generalizing ys with
  | nil => rw [mapM_nil, pure_eq_ok, forall₂_nil_left_iff, eq_comm]
  | cons x xs ih =>
    simp only [mapM_cons, bind_eq_ok, pure_eq_ok, ih, forall₂_cons_left_iff]
    constructor
    · rintro ⟨y, hy, ys, hys, rfl⟩
      exact ⟨y, ys, hy, hys, rfl⟩
    · rintro ⟨y, ys, hy, hys, rfl⟩
      exact ⟨y, hy, ys, hys, rfl⟩

/-- A traversal all of whose steps succeed. -/
theorem mapM_eq_pure {m : Type → Type} [Monad m] [LawfulMonad m] {f : α → m β} {g : α → β}
    (h : ∀ x ∈ xs, f x = pure (g x)) : xs.mapM f = pure (xs.map g) := by
  induction xs with
  | nil => exact mapM_nil
  | cons x xs ih =>
    obtain ⟨hx, hxs⟩ := forall_mem_cons.mp h
    rw [mapM_cons, hx, pure_bind, ih hxs, pure_bind, map_cons]

/-- A property that every accepted round keeps holds after an accepted loop. -/
theorem foldlM_invariant {f : σ → α → Except ε σ} {I : σ → Prop}
    (step : ∀ s a s', f s a = .ok s' → I s → I s')
    (h : xs.foldlM f s = .ok s') (hs : I s) : I s' := by
  induction xs generalizing s with
  | nil =>
    rw [foldlM_nil, pure_eq_ok] at h
    exact h ▸ hs
  | cons a xs ih =>
    rw [foldlM_cons, bind_eq_ok] at h
    obtain ⟨t, ht, h⟩ := h
    exact ih h (step s a t ht hs)

/-- Every element of an accepted loop was accepted in some round. -/
theorem foldlM_mem {f : σ → α → Except ε σ} (h : xs.foldlM f s = .ok s')
    (ha : a ∈ xs) : ∃ t t', f t a = .ok t' := by
  induction xs generalizing s with
  | nil => cases ha
  | cons b xs ih =>
    rw [foldlM_cons, bind_eq_ok] at h
    obtain ⟨t, ht, h⟩ := h
    obtain rfl | ha := mem_cons.mp ha
    · exact ⟨s, t, ht⟩
    · exact ih h ha

/-- Every element of an accepted list has an accepted image. -/
theorem mapM_mem (h : xs.mapM f = .ok ys) (ha : a ∈ xs) : ∃ b ∈ ys, f a = .ok b := by
  induction xs generalizing ys with
  | nil => cases ha
  | cons x xs ih =>
    simp only [mapM_cons, bind_eq_ok, pure_eq_ok] at h
    obtain ⟨y, hy, rest, hrest, rfl⟩ := h
    obtain rfl | ha := mem_cons.mp ha
    · exact ⟨y, by simp, hy⟩
    · obtain ⟨b, hb, hab⟩ := ih hrest ha
      exact ⟨b, by simp [hb], hab⟩

/-! ### Errors -/

/-- A computation stops with errors of one kind only. -/
def ErrorsIn (p : ε → Prop) (x : Except ε α) : Prop := ∀ e, x = .error e → p e

namespace ErrorsIn

variable {p : ε → Prop}

theorem ok (a : α) : ErrorsIn p (.ok a : Except ε α) := nofun

theorem error {e : ε} (h : p e) : ErrorsIn p (.error e : Except ε α) := by
  rintro _ ⟨⟩
  exact h

variable {x : Except ε α}

theorem ite {c : Prop} [Decidable c] {y : Except ε α} (hx : c → ErrorsIn p x)
    (hy : ¬c → ErrorsIn p y) : ErrorsIn p (if c then x else y) := by
  split
  · next h => exact hx h
  · next h => exact hy h

/-- A second computation runs on what the first one returned. -/
theorem bind {f : α → Except ε β} (hx : ErrorsIn p x)
    (hf : ∀ a, x = .ok a → ErrorsIn p (f a)) : ErrorsIn p (x >>= f) := by
  cases x with
  | error e => exact fun e' he => hx e' (by cases he; rfl)
  | ok a => exact hf a rfl

/-- A loop stops in the round of some element, after rounds that were accepted. -/
theorem foldlM {f : σ → α → Except ε σ} {xs : List α} {s : σ}
    (h : ∀ before a after t, xs = before ++ a :: after → before.foldlM f s = .ok t →
      ErrorsIn p (f t a)) : ErrorsIn p (xs.foldlM f s) := by
  induction xs generalizing s with
  | nil => exact ok s
  | cons a xs ih =>
    rw [foldlM_cons]
    refine bind (h [] a xs s rfl rfl) fun t ht => ih fun before b after u heq hu => ?_
    refine h (a :: before) b after u (by rw [heq]; rfl) ?_
    rw [foldlM_cons, ht]
    exact hu

/-- A computation that does not stop with an error of the kind returns. -/
theorem exists_ok (h : ErrorsIn p x) (hnot : ∀ e, x = .error e → ¬p e) : ∃ a, x = .ok a := by
  cases x with
  | error e => exact absurd (h e rfl) (hnot e rfl)
  | ok a => exact ⟨a, rfl⟩

end ErrorsIn

end Zryna.Checked
