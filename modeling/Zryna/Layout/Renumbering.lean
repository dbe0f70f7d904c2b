import Mathlib.Logic.Equiv.Fin.Basic
import Zryna.Layout.NestedVecs

/-!
# Renumbered graphs

The identities of the nodes of a raw graph are arbitrary, so the verifier should say the same of a
graph and of its renumberings. Every pass does, except for the depth of the keys, which is counted
from the first node that the recursion happens to enter.

`verify_renumber_iff` says exactly when the answers agree: when another pass rejects the graph, or
when both numberings are within the key depth. `verify_topFirst` is a tower of `Vec`s for which they
do not.
-/

namespace Zryna.Layout.Aggregate

open Raw List

section Renumber

variable {sha256 : List ℕ → List ℕ} {sources : SourceMap} {target : StorageTarget}
  {graph graph' : Graph}

/-- The graph passes all checks but the one of the key depth. -/
def OtherwiseAccepted (sha256 : List ℕ → List ℕ) (graph : Graph) (sources : SourceMap)
    (target : StorageTarget) : Prop :=
  Admitted graph sources ∧ ∃ keys, Keyed graph keys ∧
    ∃ layouts, verifyKeyed sha256 graph sources target keys = .done layouts

theorem accepted_iff : (∃ layouts, verify sha256 graph sources target = .done layouts) ↔
    OtherwiseAccepted sha256 graph sources target ∧ WithinKeyDepth graph := by
  constructor
  · rintro ⟨layouts, h⟩
    obtain ⟨hadmitted, keys, hkeyed, hdepth, hverify⟩ := verify_eq_done.mp h
    exact ⟨⟨hadmitted, keys, hkeyed, layouts, hverify⟩, hdepth⟩
  · rintro ⟨⟨hadmitted, keys, hkeyed, layouts, hverify⟩, hdepth⟩
    exact ⟨layouts, verify_eq_done.mpr ⟨hadmitted, keys, hkeyed, hdepth, hverify⟩⟩

variable {keys keys' : List CanonicalKey} {σ : Equiv.Perm ℕ}

/-- The passes after the keys say the same of a renumbered graph. -/
theorem verifyKeyed_renumber (h : Renumbers σ graph graph')
    (hkeyed : Keyed graph keys) (hkeyed' : Keyed graph' keys') (hkeys : RenamedKeys σ keys keys') :
    verifyKeyed sha256 graph' sources target keys' = verifyKeyed sha256 graph sources target keys := by
  unfold verifyKeyed
  rw [assignTypeIds_renumber sha256 h hkeyed hkeyed' hkeys]

theorem OtherwiseAccepted.renumber
    (hg : OtherwiseAccepted sha256 graph sources target) (h : Renumbers σ graph graph') :
    OtherwiseAccepted sha256 graph' sources target := by
  obtain ⟨hadmitted, keys, hkeyed, layouts, hverify⟩ := hg
  obtain ⟨keys', hkeyed', hkeys⟩ := hkeyed.renumber h
  refine ⟨hadmitted.renumber h, keys', hkeyed', layouts, ?_⟩
  rw [verifyKeyed_renumber h hkeyed hkeyed' hkeys, hverify]

theorem Keyed.unique (hkeyed : Keyed graph keys) (hkeyed' : Keyed graph keys') : keys = keys' := by
  -- by induction on the length of a key, which is longer than that of the child
  have hget (n i : ℕ) (key : CanonicalKey) (hkey : keys[i]? = some key) (hn : key.encodedLen = n) :
      keys[i]? = keys'[i]? := by
    induction n using Nat.strong_induction_on generalizing i key with
    | _ n ih =>
      have hi : i < graph.types.length :=
        hkeyed.length_eq ▸ (List.getElem?_eq_some_iff.mp hkey).1
      rw [← hkeyed.eq i hi, ← hkeyed'.eq i hi]
      refine localKey_congr fun c hc => ?_
      obtain ⟨key', childKey, hkey', hchildKey, hlt⟩ := hkeyed.child_shorter hc
      obtain rfl : key = key' := Option.some.inj (hkey.symm.trans hkey')
      exact ih childKey.encodedLen (hn ▸ hlt) c childKey hchildKey rfl
  refine ext_getElem? fun i => ?_
  by_cases hi : i < keys.length
  · exact hget _ i keys[i] (getElem?_eq_getElem hi) rfl
  · have hi' : keys'.length ≤ i := by
      rw [hkeyed'.length_eq, ← hkeyed.length_eq]
      exact Nat.not_lt.mp hi
    rw [getElem?_eq_none (Nat.not_lt.mp hi), getElem?_eq_none hi']

/-- Two accepted numberings have one result. -/
theorem verify_renumber_eq (h : Renumbers σ graph graph') {layouts layouts' : VerifiedLayouts}
    (hverify : verify sha256 graph sources target = .done layouts)
    (hverify' : verify sha256 graph' sources target = .done layouts') : layouts = layouts' := by
  obtain ⟨-, keys, hkeyed, -, hlayouts⟩ := verify_eq_done.mp hverify
  obtain ⟨-, keys', hkeyed', -, hlayouts'⟩ := verify_eq_done.mp hverify'
  obtain ⟨renamed, hrenamed, hkeys⟩ := hkeyed.renumber h
  rw [hkeyed'.unique hrenamed, verifyKeyed_renumber h hkeyed hrenamed hkeys, hlayouts] at hlayouts'
  exact Outcome.done.inj hlayouts'

/-- A graph and a renumbering of it are both accepted, with one result, or both rejected: exactly
when another pass rejects the graph, or when the numberings agree on the key depth. -/
theorem verify_renumber_iff (sha256 : List ℕ → List ℕ) (graph : Graph) (sources : SourceMap)
    (target : StorageTarget) (σ : Equiv.Perm (Fin graph.types.length)) :
    (((∃ layouts, verify sha256 graph sources target = .done layouts) ↔
        ∃ layouts, verify sha256 (graph.renumber σ) sources target = .done layouts)
      ∧ ∀ layouts layouts', verify sha256 graph sources target = .done layouts →
        verify sha256 (graph.renumber σ) sources target = .done layouts' → layouts = layouts') ↔
      (OtherwiseAccepted sha256 graph sources target →
        (WithinKeyDepth graph ↔ WithinKeyDepth (graph.renumber σ))) := by
  have h := graph.renumbers σ
  have hotherwise : OtherwiseAccepted sha256 (graph.renumber σ) sources target ↔
      OtherwiseAccepted sha256 graph sources target :=
    ⟨fun hg => hg.renumber h.symm, fun hg => hg.renumber h⟩
  rw [and_iff_left fun layouts layouts' => verify_renumber_eq h, accepted_iff, accepted_iff,
    hotherwise, and_congr_right_iff]

end Renumber

/-! ### A tower that is numbered from the top -/

variable {graph graph' : Graph} {σ : Equiv.Perm ℕ}

theorem keyChildAt_renumber (h : Renumbers σ graph graph') (i : ℕ) :
    keyChildAt graph' (σ i) = (keyChildAt graph i).map σ := by
  unfold keyChildAt
  rw [h.types]
  cases graph.types[i]? with
  | none => rfl
  | some node => exact keyChild_rename σ node.kind

theorem Leads.renumber (h : Renumbers σ graph graph')
    {k i c : ℕ} (hlead : Leads graph k i c) : Leads graph' k (σ i) (σ c) := by
  induction hlead with
  | zero i => exact .zero _
  | succ hc _ ih => exact .succ (by rw [keyChildAt_renumber h, hc]; rfl) ih

/-- The numbering of a tower in which the top comes first. -/
def topFirst (height : ℕ) : Equiv.Perm (Fin (nestedVecs (height + 1)).types.length) :=
  Equiv.swap ⟨3, by simp [nestedVecs]⟩ ⟨height + 3, by simp [nestedVecs]⟩

section TopFirst

variable {height : ℕ}

/-- `k` levels of a tower. -/
theorem leads_nestedVecs (i k : ℕ) (hk : i + k ≤ height) :
    Leads (nestedVecs height) k (i + k + 2) (i + 2) := by
  induction k with
  | zero => exact .zero _
  | succ k ih =>
    refine .succ ?_ (ih (Nat.le_of_succ_le hk))
    rw [keyChildAt, getElem?_nestedVecs (by omega)]
    rfl

/-- The `Vec` at the bottom is as deep below the first node that leads to it as the tower is high. -/
theorem not_withinKeyDepth_topFirst (hheight : maxTraversalDepth < height) :
    ¬WithinKeyDepth ((nestedVecs (height + 1)).renumber (topFirst height)) := by
  intro hwithin
  have h := (nestedVecs (height + 1)).renumbers (topFirst height)
  have hlength := length_nestedVecs (height + 1)
  have htop : (nestedVecs (height + 1)).relabel (topFirst height) (height + 3) = 3 := by
    rw [Graph.relabel, dif_pos (by omega), topFirst, Equiv.swap_apply_right]
  have hbottom : (nestedVecs (height + 1)).relabel (topFirst height) 3 = height + 3 := by
    rw [Graph.relabel, dif_pos (by omega), topFirst, Equiv.swap_apply_left]
  have hprimitive (j : ℕ) (hj : j < 3) :
      (nestedVecs (height + 1)).relabel (topFirst height) j = j := by
    rw [Graph.relabel, dif_pos (by omega), topFirst, Equiv.swap_apply_of_ne_of_ne]
    · exact Fin.ne_of_val_ne hj.ne
    · exact Fin.ne_of_val_ne (show j ≠ height + 3 by omega)
  have hlead := (leads_nestedVecs 1 height (Nat.add_comm 1 height).le).renumber h
  rw [show 1 + height + 2 = height + 3 by omega] at hlead
  change Leads _ _ ((nestedVecs (height + 1)).relabel (topFirst height) (height + 3))
    ((nestedVecs (height + 1)).relabel (topFirst height) 3) at hlead
  rw [htop, hbottom] at hlead
  refine absurd (hwithin 3 ?_ height _ hlead fun j hj m hlead => ?_) (Nat.not_le.mpr hheight)
  · rw [h.length_eq, length_nestedVecs]
    omega
  · -- the nodes before the top are the primitives, which lead to themselves only
    have hnone : keyChildAt ((nestedVecs (height + 1)).renumber (topFirst height)) j = none := by
      have hchild : keyChildAt (nestedVecs (height + 1)) j = none := by
        rw [keyChildAt, getElem?_nestedVecs (by omega)]
        obtain _ | _ | _ | _ := j <;> first | rfl | omega
      have hrenumber := keyChildAt_renumber h j
      rw [hchild] at hrenumber
      change keyChildAt _ ((nestedVecs (height + 1)).relabel (topFirst height) j) = _ at hrenumber
      rwa [hprimitive j hj] at hrenumber
    cases hlead with
    | zero => omega
    | succ hc _ => rw [hnone] at hc; cases hc

/-- A tower of 258 `Vec`s is accepted when it is numbered from the bottom, and rejected when the
top is numbered first. -/
theorem verify_topFirst :
    (∃ layouts, verify (fun _ => []) (nestedVecs 258) nestedSources .linear32V1 = .done layouts)
      ∧ ∀ layouts, verify (fun _ => []) ((nestedVecs 258).renumber (topFirst 257)) nestedSources
        .linear32V1 ≠ .done layouts := by
  refine ⟨verify_nestedVecs _ (by decide) _, fun layouts hlayouts => ?_⟩
  have hdepth := (accepted_iff.mp ⟨layouts, hlayouts⟩).2
  exact not_withinKeyDepth_topFirst (by decide) hdepth

end TopFirst

end Zryna.Layout.Aggregate
