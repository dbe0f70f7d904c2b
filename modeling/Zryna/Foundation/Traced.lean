import Zryna.Foundation.Outcome

/-!
# Fuelled evaluation with a trace

An evaluator whose intermediate steps are of interest keeps a trace: the list of the events it
went through, also when it ends in a fault or runs out of fuel. `Traced τ ε α` is an outcome with
such a trace.

`Agree P R` compares an evaluation without a trace with a traced one: every event satisfies `P`
and the outcomes agree up to `R`.
-/

namespace Zryna

/-- An outcome and the events on the way to it. -/
structure Traced (τ ε α : Type) where
  trace : List τ
  outcome : Outcome ε α

namespace Traced

variable {τ ε ε' α β γ δ : Type}

/-- Continue with the result. -/
def bind (m : Traced τ ε α) (f : α → Traced τ ε β) : Traced τ ε β :=
  match m.outcome with
  | .timeout => ⟨m.trace, .timeout⟩
  | .fault e => ⟨m.trace, .fault e⟩
  | .done a => ⟨m.trace ++ (f a).trace, (f a).outcome⟩

instance : Monad (Traced τ ε) where
  pure a := ⟨[], .done a⟩
  bind := Traced.bind

/-- An evaluation that ends at once. -/
def fault (e : ε) : Traced τ ε α := ⟨[], .fault e⟩

/-- Out of fuel. -/
def timeout : Traced τ ε α := ⟨[], .timeout⟩

/-- Records an event. -/
def tell (event : τ) : Traced τ ε Unit := ⟨[event], .done ()⟩

theorem pure_eq (a : α) : (pure a : Traced τ ε α) = ⟨[], .done a⟩ := rfl

@[simp] theorem pure_bind (a : α) (f : α → Traced τ ε β) :
    ((pure a : Traced τ ε α) >>= f) = f a := rfl

@[simp] theorem fault_bind (e : ε) (f : α → Traced τ ε β) :
    ((fault e : Traced τ ε α) >>= f) = fault e := rfl

@[simp] theorem timeout_bind (f : α → Traced τ ε β) :
    ((timeout : Traced τ ε α) >>= f) = timeout := rfl

@[simp] theorem bind_pure (m : Traced τ ε α) : (m >>= pure) = m := by
  obtain ⟨trace, outcome⟩ := m
  cases outcome with
  | done a => exact congrArg (Traced.mk · _) (List.append_nil trace)
  | _ => rfl

theorem bind_assoc (m : Traced τ ε α) (f : α → Traced τ ε β) (g : β → Traced τ ε γ) :
    ((m >>= f) >>= g) = (m >>= fun a => f a >>= g) := by
  obtain ⟨trace, outcome⟩ := m
  cases outcome with
  | timeout => rfl
  | fault e => rfl
  | done a =>
    change Traced.bind ⟨trace ++ (f a).trace, (f a).outcome⟩ g
      = ⟨trace ++ (Traced.bind (f a) g).trace, (Traced.bind (f a) g).outcome⟩
    cases h : (f a).outcome with
    | done b => simp [Traced.bind, h]
    | _ => simp [Traced.bind, h]

/-- The events satisfy `P` and the outcomes agree up to `R`. -/
structure Agree (P : τ → Prop) (R : α → β → Prop) (m : Outcome ε α) (m' : Traced τ ε' β) :
    Prop where
  trace : ∀ event ∈ m'.trace, P event
  outcome : Outcome.Agree R m m'.outcome

variable {P : τ → Prop} {R : α → β → Prop} {S : γ → δ → Prop}

theorem Agree.done {a : α} {b : β} (h : R a b) :
    Agree P R (.done a : Outcome ε α) (pure b : Traced τ ε' β) :=
  ⟨by simp [pure_eq], h⟩

theorem Agree.timeout : Agree P R (.timeout : Outcome ε α) (Traced.timeout : Traced τ ε' β) :=
  ⟨by simp [Traced.timeout], trivial⟩

/-- Agreement is kept by continuations that agree on related results. -/
theorem Agree.bind {m : Outcome ε α} {m' : Traced τ ε' β} {f : α → Outcome ε γ}
    {f' : β → Traced τ ε' δ} (h : Agree P R m m')
    (hf : ∀ a b, m = .done a → R a b → Agree P S (f a) (f' b)) :
    Agree P S (m >>= f) (m' >>= f') := by
  obtain ⟨htrace, houtcome⟩ := h
  obtain ⟨trace, outcome⟩ := m'
  cases m with
  | timeout =>
    cases outcome with
    | timeout => exact ⟨htrace, trivial⟩
    | _ => exact houtcome.elim
  | fault e => cases outcome <;> exact houtcome.elim
  | done a =>
    cases outcome with
    | done b =>
      obtain ⟨htrace', houtcome'⟩ := hf a b rfl houtcome
      refine ⟨fun event hevent => ?_, houtcome'⟩
      rcases List.mem_append.mp hevent with hevent | hevent
      · exact htrace event hevent
      · exact htrace' event hevent
    | _ => exact houtcome.elim

/-! ### Steps of the traced evaluation alone -/

/-- The events satisfy `P` and the result is `a`. -/
structure Yields (P : τ → Prop) (m : Traced τ ε α) (a : α) : Prop where
  trace : ∀ event ∈ m.trace, P event
  outcome : m.outcome = .done a

theorem Yields.pure (a : α) : Yields P (Pure.pure a : Traced τ ε α) a := ⟨by simp [pure_eq], rfl⟩

theorem Yields.tell {event : τ} (h : P event) : Yields P (Traced.tell event : Traced τ ε Unit) () :=
  ⟨by simpa [Traced.tell] using h, rfl⟩

theorem Yields.bind {m : Traced τ ε α} {f : α → Traced τ ε β} {a : α} {b : β} (h : Yields P m a)
    (hf : Yields P (f a) b) : Yields P (m >>= f) b := by
  obtain ⟨trace, outcome⟩ := m
  obtain ⟨htrace, rfl⟩ := h
  refine ⟨fun event hevent => ?_, hf.outcome⟩
  rcases List.mem_append.mp hevent with hevent | hevent
  · exact htrace event hevent
  · exact hf.trace event hevent

theorem Yields.bind_agree {m : Outcome ε γ} {t : Traced τ ε' α} {a : α} {f : α → Traced τ ε' δ}
    (h : Yields P t a) (hf : Agree P S m (f a)) : Agree P S m (t >>= f) := by
  obtain ⟨trace, outcome⟩ := t
  obtain ⟨htrace, rfl⟩ := h
  refine ⟨fun event hevent => ?_, hf.outcome⟩
  rcases List.mem_append.mp hevent with hevent | hevent
  · exact htrace event hevent
  · exact hf.trace event hevent

theorem Yields.agree {m : Traced τ ε' β} {a : α} {b : β} (h : Yields P m b) (hR : R a b) :
    Agree P R (.done a : Outcome ε α) m :=
  ⟨h.trace, by rw [h.outcome]; exact hR⟩

end Traced

end Zryna
