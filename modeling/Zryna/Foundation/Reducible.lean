import Mathlib.Data.Set.Card
import Zryna.Foundation.Dominance

/-!
# Reducible graphs

A closed walk is *headed* when one of its nodes dominates all of them, and a graph is reducible
when every closed walk is. An edge whose target dominates its source is a back edge; the other
edges are forward.

A finite graph is reducible exactly when its forward edges can be ranked (`Reducible.exists_rank`,
`reducible_of_rank`). In a reducible graph every strongly connected set of nodes has a header
(`Headed.of_rank`), and it is entered through that header only (`Dominates.entered`). The converse fails: a set with a header may contain a closed walk that
avoids it.

The natural loop of a header consists of the header and of the nodes that reach the source of one
of its back edges without passing it.
-/

namespace Zryna

open Relation List

variable {α : Type*} {E : α → α → Prop} {r a b h s : α}

/-! ### Walks -/

/-- A list of nodes with an edge from each to the next, and from the last to the first. -/
structure ClosedWalk (E : α → α → Prop) (nodes : List α) : Prop where
  ne_nil : nodes ≠ []
  chain : nodes.IsChain E
  closes : E (nodes.getLast ne_nil) (nodes.head ne_nil)

namespace ClosedWalk

variable {nodes : List α}

theorem mono {F : α → α → Prop} (hF : ∀ u v, E u v → F u v) (h : ClosedWalk E nodes) :
    ClosedWalk F nodes :=
  ⟨h.ne_nil, h.chain.imp hF, hF _ _ h.closes⟩

/-- The edges of a closed walk join its own nodes. -/
theorem restrict (h : ClosedWalk E nodes) :
    ClosedWalk (fun u v => u ∈ nodes ∧ v ∈ nodes ∧ E u v) nodes :=
  ⟨h.ne_nil, List.IsChain.iff_mem.mp h.chain, getLast_mem _, head_mem _, h.closes⟩

theorem reaches (h : ClosedWalk E nodes) (ha : a ∈ nodes) (hb : b ∈ nodes) :
    ReflTransGen E a b := by
  have hlast : ReflTransGen E a (nodes.getLast h.ne_nil) :=
    h.chain.backwards_induction (ReflTransGen E · (nodes.getLast h.ne_nil)) _
      (fun _ _ hstep hpath => hpath.head hstep) (fun _ => .refl) a ha
  have hhead : ReflTransGen E (nodes.head h.ne_nil) b :=
    h.chain.induction (ReflTransGen E (nodes.head h.ne_nil) ·) _
      (fun _ _ hstep hpath => hpath.tail hstep) (fun _ => .refl) b hb
  exact hlast.trans (hhead.head h.closes)

theorem exists_pred (h : ClosedWalk E nodes) (hb : b ∈ nodes) : ∃ p ∈ nodes, E p b := by
  have hback := h.restrict.reaches (head_mem h.ne_nil) hb
  rcases ReflTransGen.cases_tail hback with rfl | ⟨p, -, hp, -, hstep⟩
  · exact ⟨_, getLast_mem h.ne_nil, h.closes⟩
  · exact ⟨p, hp, hstep⟩

end ClosedWalk

/-- A closed walk leads along every nonempty path from a node to itself. -/
theorem exists_closedWalk (h : TransGen E a a) : ∃ nodes, ClosedWalk E nodes := by
  obtain ⟨b, hpath, hlast⟩ := TransGen.tail'_iff.mp h
  obtain ⟨nodes, hne, hchain, hhead, hend⟩ :=
    exists_isChain_ne_nil_of_relationReflTransGen hpath
  refine ⟨nodes, hne, hchain, ?_⟩
  rwa [hhead, hend]

/-- Each of two nodes reaches the other. -/
def Mutual (E : α → α → Prop) (a b : α) : Prop := ReflTransGen E a b ∧ ReflTransGen E b a

namespace Mutual

variable {c : α}

theorem refl (a : α) : Mutual E a a := ⟨.refl, .refl⟩

theorem symm (h : Mutual E a b) : Mutual E b a := ⟨h.2, h.1⟩

theorem trans (hab : Mutual E a b) (hbc : Mutual E b c) : Mutual E a c :=
  ⟨hab.1.trans hbc.1, hbc.2.trans hab.2⟩

/-- A path between linked nodes stays among the nodes linked to them. -/
theorem path (h : Mutual E a b) :
    ReflTransGen (fun u v => Mutual E a u ∧ Mutual E a v ∧ E u v) a b := by
  obtain ⟨hab, hba⟩ := h
  induction hab with
  | refl => exact .refl
  | tail hpath hstep ih =>
    have hback := ReflTransGen.head hstep hba
    exact (ih hback).tail ⟨⟨hpath, hback⟩, ⟨hpath.tail hstep, hba⟩, hstep⟩

end Mutual

/-! ### Dominance along paths -/

/-- A path to a node avoids `h` or leads through it. -/
theorem avoids_or_reaches (h : α) (hpath : ReflTransGen E r b) :
    Avoids E r h b ∨ ReflTransGen E h b := by
  induction hpath with
  | refl =>
    by_cases hr : h = r
    · exact .inr (hr ▸ .refl)
    · exact .inl ⟨hr, .refl⟩
  | @tail p b _ hstep ih =>
    by_cases hb : h = b
    · exact .inr (hb ▸ .refl)
    · exact ih.imp (fun hp => hp.tail hstep hb) fun hp => hp.tail hstep

/-- A dominator of a reachable node reaches it. -/
theorem Dominates.reaches (hdom : Dominates E r h b) (hpath : ReflTransGen E r b) :
    ReflTransGen E h b :=
  (avoids_or_reaches h hpath).resolve_left hdom

/-- Reachable nodes that dominate each other are equal. -/
theorem Dominates.antisymm (hab : Dominates E r a b) (hba : Dominates E r b a)
    (hpath : ReflTransGen E r a) : a = b := by
  by_contra hne
  -- follow the path up to the first of the two nodes
  have hfirst : ∀ x, ReflTransGen E r x →
      (Avoids E r a x ∧ Avoids E r b x) ∨ Avoids E r b a ∨ Avoids E r a b := by
    intro x hx
    induction hx with
    | refl =>
      by_cases har : a = r
      · exact .inr (.inl ⟨fun hbr => hne (har.trans hbr.symm), har ▸ .refl⟩)
      by_cases hbr : b = r
      · exact .inr (.inr ⟨har, hbr ▸ .refl⟩)
      · exact .inl ⟨⟨har, .refl⟩, ⟨hbr, .refl⟩⟩
    | @tail p x _ hstep ih =>
      rcases ih with ⟨ha, hb⟩ | hdone
      · by_cases hax : a = x
        · exact .inr (.inl (hax ▸ hb.tail hstep fun hbx => hne (hax.trans hbx.symm)))
        by_cases hbx : b = x
        · exact .inr (.inr (hbx ▸ ha.tail hstep hax))
        · exact .inl ⟨ha.tail hstep hax, hb.tail hstep hbx⟩
      · exact .inr hdone
  rcases hfirst a hpath with ⟨ha, -⟩ | hav | hav
  · exact ha.ne rfl
  · exact hba hav
  · exact hab hav

/-- A set of linked nodes is entered through a node that dominates it. -/
theorem Dominates.entered {p : α} (hdom : Dominates E r h b) (hlinked : Mutual E h b)
    (hedge : E p b) (hpath : ReflTransGen E r p) (hout : ¬ Mutual E h p) : b = h := by
  by_contra hne
  have hp : Dominates E r h p := hdom.pred (Ne.symm hne) hedge
  exact hout ⟨hp.reaches hpath, hlinked.2.head hedge⟩

/-! ### Headers -/

section

variable (E : α → α → Prop)

/-- One of the nodes dominates all of them. -/
def Headed (r : α) (P : α → Prop) : Prop :=
  ∃ h, P h ∧ ∀ b, P b → Dominates E r h b

/-- Every closed walk has a header. -/
def Reducible (r : α) : Prop :=
  ∀ nodes, ClosedWalk E nodes → Headed E r (· ∈ nodes)

/-- The target dominates the source. -/
def BackEdge (r s h : α) : Prop := E s h ∧ Dominates E r h s

def ForwardEdge (r u v : α) : Prop := E u v ∧ ¬ Dominates E r v u

end

/-- Along a ranking of the forward edges, a set whose nodes reach each other inside it has a
header: its node of least rank. -/
theorem Headed.of_rank {rank : α → ℕ} (hrank : ∀ u v, ForwardEdge E r u v → rank u < rank v)
    {P : α → Prop} (ha : P a)
    (hin : ∀ x y, P x → P y → ReflTransGen (fun u v => P u ∧ P v ∧ E u v) x y) : Headed E r P := by
  classical
  obtain ⟨h, hP, hleast⟩ : ∃ h, P h ∧ ∀ b, P b → rank h ≤ rank b := by
    have hex : ∃ n, ∃ x, P x ∧ rank x = n := ⟨rank a, a, ha, rfl⟩
    obtain ⟨h, hP, hn⟩ := Nat.find_spec hex
    exact ⟨h, hP, fun b hb => hn ▸ Nat.find_min' hex ⟨b, hb, rfl⟩⟩
  refine ⟨h, hP, fun b hb => ?_⟩
  -- go backwards along a path from the node to the header
  induction hin b h hb hP using ReflTransGen.head_induction_on with
  | refl => exact Dominates.refl
  | @head x y hstep _ ih =>
    obtain ⟨hx, hPy, hedge⟩ := hstep
    by_cases hy : h = y
    · subst hy
      by_contra hfwd
      exact absurd (hrank x h ⟨hedge, hfwd⟩) (not_lt.mpr (hleast x hx))
    · exact (ih hPy).pred hy hedge

theorem reducible_of_rank {rank : α → ℕ} (hrank : ∀ u v, ForwardEdge E r u v → rank u < rank v) :
    Reducible E r := by
  intro nodes h
  exact Headed.of_rank hrank (head_mem h.ne_nil) fun x y hx hy => h.restrict.reaches hx hy

/-- Forward edges do not close a walk in a reducible graph. -/
theorem Reducible.acyclic (hred : Reducible E r) (a : α) : ¬ TransGen (ForwardEdge E r) a a := by
  intro hcycle
  obtain ⟨nodes, hwalk⟩ := exists_closedWalk hcycle
  obtain ⟨h, hmem, hdom⟩ := hred nodes (hwalk.mono fun _ _ hedge => hedge.1)
  obtain ⟨p, hp, hedge⟩ := hwalk.exists_pred hmem
  exact hedge.2 (hdom p hp)

/-- Acyclic edges with finitely many sources are ranked by the number of nodes before. -/
theorem ncard_lt_of_acyclic {F : α → α → Prop} (hfin : {u | ∃ v, F u v}.Finite)
    (hacyclic : ∀ a, ¬ TransGen F a a) {u v : α} (hedge : F u v) :
    {x | TransGen F x u}.ncard < {x | TransGen F x v}.ncard := by
  have hsub : {x | TransGen F x v} ⊆ {x | ∃ y, F x y} := fun x hx => by
    obtain ⟨y, hy, -⟩ := TransGen.head'_iff.mp hx
    exact ⟨y, hy⟩
  refine Set.ncard_lt_ncard ⟨fun x hx => hx.tail hedge, fun hback => ?_⟩ (hfin.subset hsub)
  exact hacyclic u (hback (TransGen.single hedge))

theorem Reducible.exists_rank (hfin : {u | ∃ v, E u v}.Finite) (hred : Reducible E r) :
    ∃ rank : α → ℕ, ∀ u v, ForwardEdge E r u v → rank u < rank v :=
  ⟨_, fun _ _ hedge => ncard_lt_of_acyclic
    (hfin.subset fun _ ⟨v, hv⟩ => ⟨v, hv.1⟩) hred.acyclic hedge⟩

/-- In a reducible graph the nodes linked to one another have a header. -/
theorem Reducible.headed (hfin : {u | ∃ v, E u v}.Finite) (hred : Reducible E r) (a : α) :
    Headed E r (Mutual E a) := by
  obtain ⟨rank, hrank⟩ := hred.exists_rank hfin
  refine Headed.of_rank hrank (Mutual.refl a) fun x y hx hy => ?_
  refine ReflTransGen.mono (fun u v hstep => ?_) _ _ (hx.symm.trans hy).path
  exact ⟨hx.trans hstep.1, hx.trans hstep.2.1, hstep.2.2⟩

/-! ### Natural loops -/

/-- `b` belongs to the natural loop of `h`. -/
def NaturalLoop (E : α → α → Prop) (r h b : α) : Prop :=
  ∃ s, BackEdge E r s h ∧ (b = h ∨ b ≠ h ∧ ReflTransGen (fun u v => E u v ∧ v ≠ h) b s)

/-- The number of natural loops a node belongs to. -/
noncomputable def loopDepth (E : α → α → Prop) (r b : α) : ℕ := {h | NaturalLoop E r h b}.ncard

/-- The root belongs to no loop but its own. -/
theorem NaturalLoop.root (hloop : NaturalLoop E r h r) : h = r := by
  obtain ⟨s, ⟨-, hdom⟩, rfl | ⟨hne, hpath⟩⟩ := hloop
  · rfl
  · exact absurd ⟨hne.symm, hpath⟩ hdom

theorem NaturalLoop.dominates (hloop : NaturalLoop E r h b) : Dominates E r h b := by
  obtain ⟨s, ⟨-, hdom⟩, rfl | ⟨-, hpath⟩⟩ := hloop
  · exact .refl
  · exact hdom.of_path hpath

/-- A dominator of a reachable node is reachable. -/
theorem Dominates.reachable (hdom : Dominates E r h b) (hpath : ReflTransGen E r b) :
    ReflTransGen E r h := by
  suffices hone : Avoids E r h b ∨ ReflTransGen E r h from hone.resolve_left hdom
  clear hdom
  induction hpath with
  | refl =>
    by_cases hr : h = r
    · exact .inr (hr ▸ .refl)
    · exact .inl ⟨hr, .refl⟩
  | @tail p x hpath hstep ih =>
    rcases ih with hp | hp
    · by_cases hx : h = x
      · exact .inr (hx ▸ hpath.tail hstep)
      · exact .inl (hp.tail hstep hx)
    · exact .inr hp

/-- Dominators of one reachable node are comparable. -/
theorem Dominates.total (ha : Dominates E r a s) (hb : Dominates E r b s)
    (hpath : ReflTransGen E r s) : Dominates E r a b ∨ Dominates E r b a := by
  by_contra hnot
  obtain ⟨hab, hba⟩ := not_or.mp hnot
  have hab : Avoids E r a b := not_not.mp hab
  have hba : Avoids E r b a := not_not.mp hba
  -- a path that meets one of the two can be replaced by one that avoids the other
  have hone : Avoids E r a s ∨ Avoids E r b s := by
    clear ha hb hnot
    induction hpath with
    | refl => exact .inl ⟨hab.1, .refl⟩
    | @tail p x _ hstep ih =>
      rcases ih with hp | hp
      · by_cases hx : a = x
        · exact .inr (hx ▸ hba)
        · exact .inl (hp.tail hstep hx)
      · by_cases hx : b = x
        · exact .inl (hx ▸ hab)
        · exact .inr (hp.tail hstep hx)
  exact hone.elim ha hb

/-- A dominator reaches the node without a node that it does not dominate. -/
theorem Dominates.reaches_avoiding (hdom : Dominates E r h b) (hs : ¬ Dominates E r h s)
    (hpath : ReflTransGen E r b) : ReflTransGen (fun u v => E u v ∧ v ≠ s) h b := by
  have hs : Avoids E r h s := not_not.mp hs
  suffices hone : Avoids E r h b ∨ ReflTransGen (fun u v => E u v ∧ v ≠ s) h b from
    hone.resolve_left hdom
  clear hdom
  induction hpath with
  | refl =>
    by_cases hr : h = r
    · exact .inr (hr ▸ .refl)
    · exact .inl ⟨hr, .refl⟩
  | @tail p x _ hstep ih =>
    rcases ih with hp | hp
    · by_cases hx : h = x
      · exact .inr (hx ▸ .refl)
      · exact .inl (hp.tail hstep hx)
    · by_cases hx : x = s
      · exact .inl (hx ▸ hs)
      · exact .inr (hp.tail ⟨hstep, hx⟩)

/-- Of two loops that share a node, the one whose header is dominated lies in the other. -/
theorem NaturalLoop.subset_of_dominates {x y : α} (hdom : Dominates E r a b) (hne : a ≠ b)
    (hreach : ReflTransGen E r a) (hxreach : ReflTransGen E r x) (hxa : NaturalLoop E r a x)
    (hxb : NaturalLoop E r b x) (hy : NaturalLoop E r b y) : NaturalLoop E r a y := by
  have hnot : ¬ Dominates E r b a := fun hba => hne (hdom.antisymm hba hreach)
  have hout (z : α) (hz : NaturalLoop E r b z) : z ≠ a := fun hza => hnot (hza ▸ hz.dominates)
  -- round the inner loop to its header, from there to the shared node, and on to the outer source
  have hinner : ReflTransGen (fun u v => E u v ∧ v ≠ a) y b := by
    obtain ⟨s, hback, rfl | ⟨-, hpath⟩⟩ := hy
    · exact .refl
    refine ReflTransGen.tail ?_ ⟨hback.1, hne.symm⟩
    induction hpath using ReflTransGen.head_induction_on with
    | refl => exact .refl
    | @head u v hstep hrest ih =>
      exact ih.head ⟨hstep.1, hout v ⟨s, hback, .inr ⟨hstep.2, hrest⟩⟩⟩
  have hshared := hxb.dominates.reaches_avoiding hnot hxreach
  obtain ⟨s, hback, hx⟩ := hxa
  have houter := (hx.resolve_left (hout x hxb)).2
  exact ⟨s, hback, .inr ⟨hout y hy, (hinner.trans hshared).trans houter⟩⟩

/-- Loops around one node are nested. -/
theorem NaturalLoop.nested {x : α} (hpath : ReflTransGen E r x) (ha : NaturalLoop E r a x)
    (hb : NaturalLoop E r b x) :
    (∀ y, NaturalLoop E r b y → NaturalLoop E r a y)
      ∨ ∀ y, NaturalLoop E r a y → NaturalLoop E r b y := by
  by_cases hne : a = b
  · exact .inl fun y hy => hne ▸ hy
  have hreach := ha.dominates.reachable hpath
  have hreach' := hb.dominates.reachable hpath
  rcases ha.dominates.total hb.dominates hpath with hdom | hdom
  · exact .inl fun y => NaturalLoop.subset_of_dominates hdom hne hreach hpath ha hb
  · exact .inr fun y => NaturalLoop.subset_of_dominates hdom (Ne.symm hne) hreach' hpath hb ha

end Zryna
