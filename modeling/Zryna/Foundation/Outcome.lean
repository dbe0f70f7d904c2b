import Mathlib.Data.Nat.Notation
import Mathlib.Logic.Relation

/-!
# Outcomes of fuelled evaluation

An evaluator that is given fuel ends with a result, with a fault, or because its fuel ran out.
`Outcome ε α` is that three-way result, a monad in the result.

A language whose evaluator is `run : ℕ → Outcome ε α` *returns* `a` when some fuel gives `a`, and
*diverges* when every fuel runs out. Two evaluators that agree at every fuel, up to a translation
of results, therefore return and diverge together; `Agree` is that agreement where the first
evaluator does not fault.
-/

namespace Zryna

/-- The result of an evaluation with bounded fuel. -/
inductive Outcome (ε α : Type) where
  | timeout
  | fault (e : ε)
  | done (a : α)
deriving DecidableEq

namespace Outcome

variable {ε ε' α β : Type}

/-- Continue with the result. -/
def bind (m : Outcome ε α) (f : α → Outcome ε β) : Outcome ε β :=
  match m with
  | .timeout => .timeout
  | .fault e => .fault e
  | .done a => f a

instance : Monad (Outcome ε) where
  pure := .done
  bind := Outcome.bind

/-- A partial result; `e` is the fault where it is undefined. -/
def ofOption (e : ε) : Option α → Outcome ε α
  | none => .fault e
  | some a => .done a

@[simp] theorem pure_eq (a : α) : (pure a : Outcome ε α) = .done a := rfl

@[simp] theorem timeout_bind (f : α → Outcome ε β) :
    ((.timeout : Outcome ε α) >>= f) = .timeout := rfl

@[simp] theorem fault_bind (e : ε) (f : α → Outcome ε β) :
    ((.fault e : Outcome ε α) >>= f) = .fault e := rfl

@[simp] theorem done_bind (a : α) (f : α → Outcome ε β) :
    ((.done a : Outcome ε α) >>= f) = f a := rfl

@[simp] theorem ofOption_some (e : ε) (a : α) : ofOption e (some a) = .done a := rfl

@[simp] theorem ofOption_none (e : ε) : (ofOption e none : Outcome ε α) = .fault e := rfl

theorem bind_done (m : Outcome ε α) : (m >>= .done) = m := by cases m <;> rfl

variable {f : α → Outcome ε β} {m : Outcome ε α} {m' : Outcome ε' β} {run' : ℕ → Outcome ε' β}

theorem bind_eq_done {b : β} : (m >>= f) = .done b ↔ ∃ a, m = .done a ∧ f a = .done b := by
  cases m <;> simp

theorem bind_eq_timeout :
    (m >>= f) = .timeout ↔ m = .timeout ∨ ∃ a, m = .done a ∧ f a = .timeout := by
  cases m <;> simp

theorem bind_eq_fault {e : ε} :
    (m >>= f) = .fault e ↔ m = .fault e ∨ ∃ a, m = .done a ∧ f a = .fault e := by
  cases m <;> simp

/-- A loop relates its start to its end as its rounds do. -/
theorem foldlM_rel {σ : Type} {R : σ → σ → Prop} (hrefl : ∀ s, R s s)
    (htrans : ∀ {s t u}, R s t → R t u → R s u) {step : σ → α → Outcome ε σ}
    (hstep : ∀ a s t, step s a = .done t → R s t) {xs : List α} {s t : σ}
    (h : xs.foldlM step s = .done t) : R s t := by
  induction xs generalizing s with
  | nil =>
    cases h
    exact hrefl _
  | cons a xs ih =>
    rw [List.foldlM_cons, bind_eq_done] at h
    obtain ⟨mid, hmid, h⟩ := h
    exact htrans (hstep a s mid hmid) (ih h)

def Faultless (m : Outcome ε α) : Prop := ∀ e, m ≠ .fault e

theorem Faultless.of_bind (h : (m >>= f).Faultless) : m.Faultless := by
  intro e he
  exact h e (by rw [he]; rfl)

theorem Faultless.of_bind_done
    (h : (m >>= f).Faultless) {a : α} (ha : m = .done a) : (f a).Faultless := by
  subst ha
  exact h

/-- The outcomes agree up to `R`: they run out together, or end with related results. -/
def Agree (R : α → β → Prop) : Outcome ε α → Outcome ε' β → Prop
  | .timeout, .timeout => True
  | .done a, .done b => R a b
  | _, _ => False

variable {R : α → β → Prop}

@[simp] theorem agree_done {a : α} {b : β} :
    Agree R (.done a : Outcome ε α) (.done b : Outcome ε' β) ↔ R a b := Iff.rfl

/-- Agreement is kept by continuations that agree on related results. -/
theorem Agree.bind {γ δ : Type} {S : γ → δ → Prop}
    {f : α → Outcome ε γ} {f' : β → Outcome ε' δ} (h : Agree R m m')
    (hf : ∀ a b, m = .done a → R a b → Agree S (f a) (f' b)) : Agree S (m >>= f) (m' >>= f') := by
  cases m with
  | timeout =>
    cases m' with
    | timeout => trivial
    | _ => exact h.elim
  | fault e => cases m' <;> exact h.elim
  | done a =>
    cases m' with
    | done b => exact hf a b rfl h
    | _ => exact h.elim

theorem Agree.done_left {a : α}
    (h : Agree R (.done a : Outcome ε α) m') : ∃ b, m' = .done b ∧ R a b := by
  cases m' with
  | done b => exact ⟨b, rfl, h⟩
  | _ => exact h.elim

theorem Agree.timeout_iff (h : Agree R m m') : m = .timeout ↔ m' = .timeout := by
  cases m <;> cases m' <;> simp_all [Agree]

/-- Two outcomes that agree with a third agree with each other. -/
theorem Agree.through {γ ε'' : Type} {S : α → γ → Prop} {T : β → γ → Prop} {m'' : Outcome ε'' γ}
    (h : Agree R m m') (h' : Agree S m m'')
    (hT : ∀ a b c, m = .done a → R a b → S a c → T b c) : Agree T m' m'' := by
  cases m with
  | timeout =>
    rw [h.timeout_iff.mp rfl, h'.timeout_iff.mp rfl]
    trivial
  | fault e => cases m' <;> exact h.elim
  | done a =>
    obtain ⟨b, rfl, hb⟩ := h.done_left
    obtain ⟨c, rfl, hc⟩ := h'.done_left
    exact hT a b c rfl hb hc

/-- The outcomes match up to `R`: they run out together, fault alike, or end with related
results. -/
def Matches (R : α → β → Prop) : Outcome ε α → Outcome ε β → Prop
  | .timeout, .timeout => True
  | .fault e, .fault e' => e = e'
  | .done a, .done b => R a b
  | _, _ => False

@[simp] theorem matches_done {a : α} {b : β} :
    Matches R (.done a : Outcome ε α) (.done b) ↔ R a b := Iff.rfl

@[simp] theorem matches_fault (e : ε) :
    Matches R (.fault e : Outcome ε α) (.fault e) := rfl

/-- Continuations that match on related results match after outcomes that match. -/
theorem Matches.bind {γ δ : Type} {S : γ → δ → Prop}
    {m' : Outcome ε β} {f : α → Outcome ε γ} {f' : β → Outcome ε δ} (h : Matches R m m')
    (hf : ∀ a b, R a b → Matches S (f a) (f' b)) : Matches S (m >>= f) (m' >>= f') := by
  cases m with
  | timeout =>
    cases m' with
    | timeout => trivial
    | _ => exact h.elim
  | fault e =>
    cases m' with
    | fault e' => exact h
    | _ => exact h.elim
  | done a =>
    cases m' with
    | done b => exact hf a b h
    | _ => exact h.elim

theorem Matches.refl {R : α → α → Prop} (hR : ∀ a, R a a) (m : Outcome ε α) : Matches R m m := by
  cases m with
  | timeout => trivial
  | fault e => exact rfl
  | done a => exact hR a

theorem Matches.eq {m' : Outcome ε α} (h : Matches (· = ·) m m') : m = m' := by
  cases m with
  | timeout => cases m' <;> first | rfl | exact h.elim
  | fault e =>
    cases m' with
    | fault e' => exact congrArg _ h
    | _ => exact h.elim
  | done a =>
    cases m' with
    | done b => exact congrArg _ h
    | _ => exact h.elim

/-! ### Evaluators -/

/-- Some fuel gives the result `a`. -/
def Returns (run : ℕ → Outcome ε α) (a : α) : Prop := ∃ n, run n = .done a

/-- Every fuel runs out. -/
def Diverges (run : ℕ → Outcome ε α) : Prop := ∀ n, run n = .timeout

variable {run : ℕ → Outcome ε α}

/-- Evaluators that agree at every fuel diverge together. -/
theorem diverges_iff_of_agree (h : ∀ n, Agree R (run n) (run' n)) : Diverges run ↔ Diverges run' :=
  forall_congr' fun n => (h n).timeout_iff

/-- Evaluators that agree at every fuel up to an injective translation return together. -/
theorem returns_iff_of_agree {f : α → β} (hf : Function.Injective f)
    (h : ∀ n, Agree (fun a b => b = f a) (run n) (run' n)) (a : α) :
    Returns run a ↔ Returns run' (f a) := by
  constructor
  · rintro ⟨n, hn⟩
    have := h n
    rw [hn] at this
    obtain ⟨b, hb, rfl⟩ := this.done_left
    exact ⟨n, hb⟩
  · rintro ⟨n, hn⟩
    have := h n
    rw [hn] at this
    cases hr : run n with
    | done a' =>
      rw [hr, agree_done] at this
      exact ⟨n, by rw [hr, hf this]⟩
    | timeout => rw [hr] at this; exact this.elim
    | fault e => rw [hr] at this; exact this.elim

end Outcome

end Zryna
