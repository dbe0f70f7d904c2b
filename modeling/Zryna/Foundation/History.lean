import Mathlib.Data.List.Induction

/-!
# Histories

A history is a list of events, the latest last. `Causal Q` says of every event that `Q` holds of it
and of what came before it, so a history is causal when each event was justified as it happened.
-/

namespace Zryna.History

open List

variable {ε : Type} {Q : List ε → ε → Prop} {log events : List ε} {event : ε}

/-- Every event is justified by what came before it. -/
def Causal (Q : List ε → ε → Prop) (log : List ε) : Prop :=
  ∀ before event after, log = before ++ event :: after → Q before event

theorem Causal.nil : Causal Q [] := by
  intro before event after h
  exact absurd h.symm (by simp)

/-- One more event needs a justification of its own. -/
theorem Causal.concat (h : Causal Q log) (hevent : Q log event) : Causal Q (log ++ [event]) := by
  intro before event' after heq
  cases after using List.reverseRecOn with
  | nil =>
    rw [append_inj_left' heq rfl] at hevent
    have hlast : event = event' := by simpa using append_inj_right' heq rfl
    exact hlast ▸ hevent
  | append_singleton after last =>
    rw [← cons_append, ← append_assoc] at heq
    exact h before event' after (append_inj_left' heq rfl)

/-- Events that need no justification. -/
theorem Causal.append (h : Causal Q log) (hevents : ∀ log, ∀ event ∈ events, Q log event) :
    Causal Q (log ++ events) := by
  induction events using List.reverseRecOn with
  | nil => rwa [append_nil]
  | append_singleton events event ih =>
    rw [← append_assoc]
    exact (ih fun log event hmem => hevents log event (mem_append_left _ hmem)).concat
      (hevents _ _ (by simp))

end Zryna.History
