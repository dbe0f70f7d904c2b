import Mathlib.Data.List.Basic

/-!
# Framed encodings

An encoding of some values splits when an encoded value can be told from what follows it. Such
encodings compose: a pair is written as one part after the other, and a list of a known length as
its elements one after the other. A list whose length is written first splits by itself.
-/

namespace Zryna.Framing

open List

variable {α β γ δ : Type}

/-- Encoded values that satisfy `p` are told from what follows them. -/
def Splits (p : α → Prop) (encode : α → List β) : Prop :=
  ∀ ⦃a b : α⦄ ⦃r s : List β⦄, p a → p b → encode a ++ r = encode b ++ s → a = b ∧ r = s

namespace Splits

variable {p : α → Prop} {encode : α → List β} {q : γ → Prop} {encode' : γ → List β}

/-- An injective encoding of fixed length. -/
theorem of_length {n : ℕ} (hlength : ∀ a, p a → (encode a).length = n)
    (hinj : ∀ a b, p a → p b → encode a = encode b → a = b) : Splits p encode := by
  intro a b r s ha hb h
  obtain ⟨heq, hrest⟩ := append_inj h ((hlength a ha).trans (hlength b hb).symm)
  exact ⟨hinj a b ha hb heq, hrest⟩

section

variable (h : Splits p encode)

include h

/-- An encoding of parts that determine the value. -/
theorem comap {f : δ → α} (hinj : Function.Injective f) :
    Splits (fun x => p (f x)) (fun x => encode (f x)) := by
  intro x y r s hx hy heq
  obtain ⟨hf, hrest⟩ := h hx hy heq
  exact ⟨hinj hf, hrest⟩

theorem mono {p' : α → Prop} (himp : ∀ a, p' a → p a) : Splits p' encode :=
  fun _ _ _ _ ha hb heq => h (himp _ ha) (himp _ hb) heq

/-- One part after the other. -/
theorem pair (h' : Splits q encode') :
    Splits (fun x : α × γ => p x.1 ∧ q x.2) fun x => encode x.1 ++ encode' x.2 := by
  rintro ⟨a, c⟩ ⟨b, d⟩ r s ⟨ha, hc⟩ ⟨hb, hd⟩ heq
  rw [append_assoc, append_assoc] at heq
  obtain ⟨hfirst, hrest⟩ := h ha hb heq
  obtain ⟨hsecond, hrest⟩ := h' hc hd hrest
  exact ⟨Prod.ext hfirst hsecond, hrest⟩

theorem list {xs ys : List α} {r s : List β} (hlength : xs.length = ys.length)
    (hxs : ∀ x ∈ xs, p x) (hys : ∀ y ∈ ys, p y)
    (heq : xs.flatMap encode ++ r = ys.flatMap encode ++ s) : xs = ys ∧ r = s := by
  induction xs generalizing ys with
  | nil =>
    obtain rfl := eq_nil_of_length_eq_zero hlength.symm
    exact ⟨rfl, heq⟩
  | cons x xs ih =>
    cases ys with
    | nil => cases hlength
    | cons y ys =>
      obtain ⟨hx, hxs'⟩ := forall_mem_cons.mp hxs
      obtain ⟨hy, hys'⟩ := forall_mem_cons.mp hys
      rw [flatMap_cons, flatMap_cons, append_assoc, append_assoc] at heq
      obtain ⟨hhead, hrest⟩ := h hx hy heq
      obtain ⟨htail, hrest⟩ := ih (Nat.succ.inj hlength) hxs' hys' hrest
      exact ⟨congrArg₂ List.cons hhead htail, hrest⟩

/-- A list after its length. -/
theorem counted {bounded : ℕ → Prop} {count : ℕ → List β} (hcount : Splits bounded count) :
    Splits (fun xs : List α => bounded xs.length ∧ ∀ x ∈ xs, p x)
      fun xs => count xs.length ++ xs.flatMap encode := by
  intro xs ys r s hxs hys heq
  rw [append_assoc, append_assoc] at heq
  obtain ⟨hlength, hrest⟩ := hcount hxs.1 hys.1 heq
  exact h.list hlength hxs.2 hys.2 hrest

end

end Splits

end Zryna.Framing
