import Mathlib.Data.List.Nodup

/-!
# Doubly linked lists in a store

Nodes are addresses, and a store gives the previous and the next link of each node. The address 0
is the null link. `Segment` says that the nodes of a list are linked in its order, with the links
that leave the segment at both ends; `Linked` is a complete list, from a head to a null link.

The two operations of an intrusive list are stated by the links they change: `Linked.push` puts a
node in front, `Linked.unlink` takes a node out by its own two links, without a search.
-/

namespace Zryna

open List

/-- The previous and the next link of each node. -/
abbrev Links : Type := ℕ → Option (ℕ × ℕ)

namespace Links

/-- The nodes are linked in order: the first one is `first` and points back to `before`, the last
one is `last` and points on to `next`. An empty segment passes both links through. -/
def Segment (links : Links) : ℕ → ℕ → List ℕ → ℕ → ℕ → Prop
  | before, first, [], last, next => before = last ∧ first = next
  | before, first, a :: nodes, last, next =>
    first = a ∧ a ≠ 0 ∧ ∃ n, links a = some (before, n) ∧ Segment links a n nodes last next

variable {links links' : Links} {before first last next : ℕ} {nodes : List ℕ}

theorem segment_append {left right : List ℕ} :
    Segment links before first (left ++ right) last next ↔
      ∃ p n, Segment links before first left p n ∧ Segment links p n right last next := by
  induction left generalizing before first with
  | nil => simp [Segment]
  | cons a left ih =>
    simp only [cons_append, Segment, ih]
    constructor
    · rintro ⟨hfirst, hne, n, ha, p, m, hleft, hright⟩
      exact ⟨p, m, ⟨hfirst, hne, n, ha, hleft⟩, hright⟩
    · rintro ⟨p, m, ⟨hfirst, hne, n, ha, hleft⟩, hright⟩
      exact ⟨hfirst, hne, n, ha, p, m, hleft, hright⟩

section

variable (h : Segment links before first nodes last next)

include h

/-- A segment depends on the links of its own nodes only. -/
theorem Segment.congr
    (same : ∀ a ∈ nodes, links' a = links a) : Segment links' before first nodes last next := by
  induction nodes generalizing before first with
  | nil => exact h
  | cons a nodes ih =>
    obtain ⟨hfirst, hne, n, ha, hrest⟩ := h
    refine ⟨hfirst, hne, n, ?_, ih hrest fun b hb => same b (mem_cons_of_mem a hb)⟩
    rw [same a mem_cons_self, ha]

theorem Segment.ne_zero {a : ℕ} (ha : a ∈ nodes) : a ≠ 0 := by
  induction nodes generalizing before first with
  | nil => cases ha
  | cons b nodes ih =>
    obtain ⟨-, hne, n, -, hrest⟩ := h
    obtain rfl | ha := mem_cons.mp ha
    · exact hne
    · exact ih hrest ha

theorem Segment.last_mem : nodes = [] ∧ last = before ∨ last ∈ nodes := by
  induction nodes generalizing before first with
  | nil => exact .inl ⟨rfl, h.1.symm⟩
  | cons a nodes ih =>
    obtain ⟨-, -, n, -, hrest⟩ := h
    obtain ⟨rfl, rfl⟩ | hlast := ih hrest
    · exact .inr mem_cons_self
    · exact .inr (mem_cons_of_mem a hlast)

theorem Segment.setNext {next' : ℕ} (nodup : nodes.Nodup) (nonempty : nodes ≠ [])
    (changed : links' last = (links last).map fun link => (link.1, next'))
    (same : ∀ a ∈ nodes, a ≠ last → links' a = links a) :
    Segment links' before first nodes last next' := by
  induction nodes generalizing before first with
  | nil => exact absurd rfl nonempty
  | cons a nodes ih =>
    obtain ⟨hfirst, hne, n, ha, hrest⟩ := h
    obtain ⟨hnotMem, hnodup⟩ := nodup_cons.mp nodup
    cases nodes with
    | nil =>
      obtain ⟨rfl, rfl⟩ := hrest
      exact ⟨hfirst, hne, next', by rw [changed, ha]; rfl, rfl, rfl⟩
    | cons b nodes =>
      have hlast := hrest.last_mem.resolve_left (by simp)
      refine ⟨hfirst, hne, n, ?_, ih hrest hnodup (by simp) fun c hc => ?_⟩
      · rw [same a mem_cons_self fun heq => hnotMem (heq ▸ hlast), ha]
      · exact same c (mem_cons_of_mem a hc)

/-- Redirecting the first node backwards. -/
theorem Segment.setPrevious {before' : ℕ} (nodup : nodes.Nodup)
    (changed : first ∈ nodes → links' first = (links first).map fun link => (before', link.2))
    (same : ∀ a ∈ nodes, a ≠ first → links' a = links a) :
    Segment links' before' first nodes (if nodes = [] then before' else last) next := by
  cases nodes with
  | nil => exact ⟨rfl, h.2⟩
  | cons a nodes =>
    obtain ⟨rfl, hne, n, ha, hrest⟩ := h
    obtain ⟨hnotMem, -⟩ := nodup_cons.mp nodup
    refine ⟨rfl, hne, n, by rw [changed mem_cons_self, ha]; rfl, hrest.congr fun b hb => ?_⟩
    exact same b (mem_cons_of_mem first hb) fun heq => hnotMem (heq ▸ hb)

end

/-! ### Lists -/

/-- A complete list of distinct nodes from its head. -/
structure Linked (links : Links) (head : ℕ) (nodes : List ℕ) : Prop where
  nodup : nodes.Nodup
  segment : ∃ last, Segment links 0 head nodes last 0

variable {head head' a : ℕ}

theorem linked_nil : Linked links 0 [] := ⟨nodup_nil, 0, rfl, rfl⟩

section

variable (h : Linked links head nodes)

include h

theorem Linked.congr (same : ∀ a ∈ nodes, links' a = links a) : Linked links' head nodes :=
  ⟨h.nodup, h.segment.imp fun _ hsegment => hsegment.congr same⟩

/-- The head is the first node, or null in an empty list. -/
theorem Linked.head_eq : head = nodes.headD 0 := by
  obtain ⟨last, hsegment⟩ := h.segment
  cases nodes with
  | nil => exact hsegment.2
  | cons a nodes => exact hsegment.1

theorem Linked.head_mem (hne : head ≠ 0) : head ∈ nodes := by
  rw [h.head_eq] at hne ⊢
  cases nodes with
  | nil => exact absurd rfl hne
  | cons a nodes => exact mem_cons_self

/-- Putting a new node in front of a list. -/
theorem Linked.push (hne : a ≠ 0) (fresh : a ∉ nodes) (new : links' a = some (0, head))
    (changed : head ≠ 0 → links' head = (links head).map fun link => (a, link.2))
    (same : ∀ b ∈ nodes, b ≠ head → links' b = links b) : Linked links' a (a :: nodes) := by
  obtain ⟨last, hsegment⟩ := h.segment
  have hrest := hsegment.setPrevious h.nodup (fun hmem => changed (hsegment.ne_zero hmem)) same
  exact ⟨nodup_cons.mpr ⟨fresh, h.nodup⟩, _, rfl, hne, head, new, hrest⟩

/-- The links of a node are null or lead to different other nodes of the list. -/
theorem Linked.neighbours {p n : ℕ} (ha : a ∈ nodes) (links_eq : links a = some (p, n)) :
    (p ≠ 0 → p ∈ nodes ∧ p ≠ a ∧ p ≠ n) ∧ (n ≠ 0 → n ∈ nodes ∧ n ≠ a ∧ n ≠ p) := by
  obtain ⟨left, right, rfl⟩ := append_of_mem ha
  obtain ⟨last, hsegment⟩ := h.segment
  obtain ⟨p', n', hleft, rfl, hne, m, hlinks, hright⟩ := segment_append.mp hsegment
  obtain ⟨rfl, rfl⟩ : p' = p ∧ m = n := by simpa [hlinks] using links_eq
  obtain ⟨-, hnodup, hdisjoint⟩ := nodup_append.mp h.nodup
  have hp (hp : p' ≠ 0) : p' ∈ left :=
    hleft.last_mem.resolve_left fun hnil => hp hnil.2
  have hm (hm : m ≠ 0) : m ∈ right := by
    cases right with
    | nil => exact absurd hright.2 hm
    | cons b right => exact hright.1 ▸ mem_cons_self
  have hpm (hzero : p' ≠ 0 ∨ m ≠ 0) : p' ≠ m := by
    rintro rfl
    have hne : p' ≠ 0 := hzero.elim id id
    exact hdisjoint p' (hp hne) p' (mem_cons_of_mem _ (hm hne)) rfl
  constructor
  · intro hne
    exact ⟨mem_append_left _ (hp hne), hdisjoint p' (hp hne) n' mem_cons_self,
      hpm (.inl hne)⟩
  · intro hne
    refine ⟨by simp [hm hne], ?_, (hpm (.inr hne)).symm⟩
    rintro rfl
    exact (nodup_cons.mp hnodup).1 (hm hne)

end

/-- Taking a node out of a list by its own links. -/
theorem Linked.unlink {p n : ℕ} {left right : List ℕ} (h : Linked links head (left ++ a :: right))
    (links_eq : links a = some (p, n)) (front : p = 0 → head' = n)
    (previous : p ≠ 0 → head' = head ∧ links' p = (links p).map fun link => (link.1, n))
    (following : n ≠ 0 → links' n = (links n).map fun link => (p, link.2))
    (same : ∀ b ∈ left ++ right, b ≠ p → b ≠ n → links' b = links b) :
    Linked links' head' (left ++ right) := by
  obtain ⟨last, hsegment⟩ := h.segment
  obtain ⟨p', n', hleft, rfl, hne, m, ha, hright⟩ := segment_append.mp hsegment
  obtain ⟨rfl, rfl⟩ : p' = p ∧ m = n := by simpa [ha] using links_eq
  obtain ⟨hnodupLeft, hnodup, hdisjoint⟩ := nodup_append.mp h.nodup
  obtain ⟨haRight, hnodupRight⟩ := nodup_cons.mp hnodup
  -- the node after the removed one lies to the right, the node before it to the left
  have hmemRight (hm : m ≠ 0) : m ∈ right := by
    cases right with
    | nil => exact absurd hright.2 hm
    | cons b right => exact hright.1 ▸ mem_cons_self
  have hnotLeft (b : ℕ) (hb : b ∈ left) : b ≠ m := by
    intro heq
    have hm : m ≠ 0 := heq ▸ hleft.ne_zero hb
    exact hdisjoint b hb m (mem_cons_of_mem _ (hmemRight hm)) heq
  have hnotRight (b : ℕ) (hb : b ∈ right) : b ≠ p' := by
    intro heq
    obtain ⟨-, hp⟩ | hp := hleft.last_mem
    · exact hright.ne_zero hb (heq.trans hp)
    · exact hdisjoint p' hp b (mem_cons_of_mem _ hb) heq.symm
  have hright' := hright.setPrevious hnodupRight
    (fun hm => following (hright.ne_zero hm))
    (fun b hb hbm => same b (mem_append_right left hb) (hnotRight b hb) hbm)
  refine ⟨h.nodup.sublist (by simp), _, segment_append.mpr ⟨p', m, ?_, hright'⟩⟩
  obtain ⟨rfl, rfl⟩ | hp := hleft.last_mem
  · exact ⟨rfl, front rfl⟩
  · obtain ⟨rfl, hchanged⟩ := previous (hleft.ne_zero hp)
    refine hleft.setNext hnodupLeft (ne_nil_of_mem hp) hchanged fun b hb hbp => ?_
    exact same b (mem_append_left right hb) hbp (hnotLeft b hb)

end Links

end Zryna
