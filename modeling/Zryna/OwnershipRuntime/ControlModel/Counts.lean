import Mathlib.Data.Set.BooleanAlgebra
import Mathlib.Order.CompletePartialOrder
import Mathlib.Order.Interval.Set.Basic
import Zryna.OwnershipRuntime.ControlModel.Steps

/-!
# Reference counts are the live owners

The model checks every count against the count before it, one event at a time. `Counted` is what
these local checks add up to: the strong count of a control is the number of its live strong
owners, and its weak count the number of its live weak owners and one more while a strong owner or
a last-strong release is there. An owner is live until it is dropped, wherever it is held, so moving
an owner into a payload changes no count.

`Placed` is the matching fact about addresses: the live intervals are those of the allocated
controls, one each, and they do not overlap.
-/

namespace Zryna.OwnershipRuntime.ControlModel

open Zryna.Layout List Option

/-- A live owner of the control, of one mode. -/
def owns (c : ℕ) (weak : Bool) (owner : Owner) : Bool :=
  owner.control = c && owner.weak = weak && owner.location ≠ .dropped

/-- The number of live owners of a control, of one mode. -/
def Model.owned (model : Model) (c : ℕ) (weak : Bool) : ℕ := model.owners.countP (owns c weak)

/-- The weak count that strong owners hold together. -/
def implicitWeak (state : ControlState) : ℕ :=
  if 0 < state.strongCount ∨ state.pendingLastStrong = true then 1 else 0

/-! ### Counting -/

theorem countP_modify {α : Type} {p : α → Bool} {f : α → α} {xs : List α} {i : ℕ} {a : α}
    (h : xs[i]? = some a) :
    (xs.modify i f).countP p + (if p a then 1 else 0)
      = xs.countP p + if p (f a) then 1 else 0 := by
  induction xs generalizing i with
  | nil => simp at h
  | cons b xs ih =>
    cases i with
    | zero =>
      obtain rfl : b = a := by simpa using h
      rw [modify_zero_cons, countP_cons, countP_cons]
      omega
    | succ i =>
      rw [modify_succ_cons, countP_cons, countP_cons]
      have := ih (by simpa using h)
      omega

theorem getElem?_moveIntoPayload (control : ℕ) (drops : List Drop) (owners : List Owner) (id : ℕ) :
    (moveIntoPayload control drops owners)[id]? = (owners[id]?).map fun owner =>
      if .handle id ∈ drops then { owner with location := .payload control } else owner := by
  induction drops generalizing owners with
  | nil => simp [moveIntoPayload]
  | cons drop drops ih =>
    unfold moveIntoPayload at ih ⊢
    rw [foldl_cons, ih]
    cases drop with
    | node index => simp
    | handle other =>
      rw [getElem?_modify]
      by_cases h : other = id
      · subst h
        cases owners[other]? <;> simp
      · have hne : Drop.handle id ≠ .handle other := by simpa using Ne.symm h
        simp [h, hne]

variable {drops : List Drop} {owners : List Owner} {location : Location} {allocations nodes k : ℕ}
  {after before : ControlState} {intervals : OrderedMap ℕ ℕ}

/-- Moving external owners into a payload keeps every count. -/
theorem countP_moveIntoPayload {control : ℕ} (external : ∀ id, .handle id ∈ drops →
      ∃ owner, owners[id]? = some owner ∧ owner.location = .external) (c : ℕ) (weak : Bool) :
    (moveIntoPayload control drops owners).countP (owns c weak) = owners.countP (owns c weak) := by
  have hmap : (moveIntoPayload control drops owners).map (owns c weak)
      = owners.map (owns c weak) := by
    apply ext_getElem?
    intro id
    rw [getElem?_map, getElem?_map, getElem?_moveIntoPayload]
    cases howner : owners[id]? with
    | none => rfl
    | some owner =>
      by_cases hmem : Drop.handle id ∈ drops
      · obtain ⟨owner', howner', hlocation⟩ := external id hmem
        obtain rfl : owner = owner' := by simpa [howner] using howner'
        simp [hmem, owns, hlocation]
      · simp [hmem]
  calc (moveIntoPayload control drops owners).countP (owns c weak)
      = ((moveIntoPayload control drops owners).map (owns c weak)).countP id := by
        rw [countP_map]; rfl
    _ = (owners.map (owns c weak)).countP id := by rw [hmap]
    _ = owners.countP (owns c weak) := by rw [countP_map]; rfl

/-! ### The invariant -/

/-- The state and the base address of a control. -/
def look (controls : List Control) (c : ℕ) : Option (ControlState × ℕ) :=
  (controls[c]?).map fun control => (control.state, control.base)

variable {control : Control} {controls : List Control} {id : ℕ}

theorem look_eq_some {c : ℕ}
    (h : controls[c]? = some control) : look controls c = some (control.state, control.base) := by
  simp [look, h]

theorem lt_of_look {c : ℕ} {v : ControlState × ℕ}
    (h : look controls c = some v) : c < controls.length := by
  obtain ⟨control, hcontrol, -⟩ := map_eq_some_iff.mp h
  exact (List.getElem?_eq_some_iff.mp hcontrol).1

theorem look_setState (controls : List Control) (k c : ℕ) (after : ControlState) :
    look (controls.modify k fun control => { control with state := after }) c
      = (look controls c).map fun v => if k = c then (after, v.2) else v := by
  unfold look
  rw [getElem?_modify]
  cases controls[c]? with
  | none => rfl
  | some control => by_cases h : k = c <;> simp [h]

theorem look_bump (controls : List Control) (k c : ℕ) :
    look (controls.modify k fun control => { control with next := control.next + 1 }) c
      = look controls c := by
  unfold look
  rw [getElem?_modify]
  cases controls[c]? with
  | none => rfl
  | some control => by_cases h : k = c <;> simp [h]

theorem look_append (controls : List Control) (control : Control) (c : ℕ) :
    look (controls ++ [control]) c
      = if c = controls.length then some (control.state, control.base) else look controls c := by
  unfold look
  split
  · next h => simp [h]
  · next h =>
    by_cases hlt : c < controls.length
    · rw [getElem?_append_left hlt]
    · have hge : (controls ++ [control]).length ≤ c := by
        rw [length_append, length_singleton]
        omega
      rw [getElem?_eq_none hge, getElem?_eq_none (by omega)]

/-- Consuming a drop changes no state and no address. -/
theorem Source.look {model : Model} (h : Source model id location controls) (c : ℕ) :
    look controls c = ControlModel.look model.controls c := by
  cases h with
  | external => rfl
  | payload => exact look_bump _ _ _

theorem Source.length_eq {model : Model}
    (h : Source model id location controls) : controls.length = model.controls.length := by
  cases h with
  | external => rfl
  | payload => exact length_modify _ _ _

/-- Counts are numbers of live owners, and the pending list is the flags. -/
structure Counted (model : Model) : Prop where
  issued : ∀ owner ∈ model.owners, owner.control < model.controls.length
  valid : ∀ {c : ℕ} {v : ControlState × ℕ}, look model.controls c = some v →
    validControlState v.1 = true
  strong : ∀ {c : ℕ} {v : ControlState × ℕ}, look model.controls c = some v →
    v.1.strongCount = model.owned c false
  weak : ∀ {c : ℕ} {v : ControlState × ℕ}, look model.controls c = some v →
    v.1.weakCount = model.owned c true + implicitWeak v.1
  nodup : model.pending.Nodup
  pending : ∀ c : ℕ, c ∈ model.pending ↔
    ∃ v, look model.controls c = some v ∧ v.1.pendingLastStrong = true

/-- Live intervals are the intervals of the allocated controls and do not overlap. -/
structure Placed (model : Model) : Prop where
  keys : ∀ base : ℕ, (∃ stop, (base, stop) ∈ model.intervals.entries) ↔
    ∃ c state, look model.controls c = some (state, base) ∧ state.allocated = true
  distinct : ∀ {c d base : ℕ} {state other : ControlState},
    look model.controls c = some (state, base) → look model.controls d = some (other, base) →
    state.allocated = true → other.allocated = true → c = d
  nonempty : ∀ entry ∈ model.intervals.entries, entry.1 < entry.2
  apart : ∀ a ∈ model.intervals.entries, ∀ b ∈ model.intervals.entries, a.1 < b.1 → a.2 ≤ b.1

/-- A control is allocated exactly while it has a weak count. -/
theorem allocated_iff_of_valid {state : ControlState} (h : validControlState state = true) :
    state.allocated = true ↔ 0 < state.weakCount := by
  unfold validControlState at h
  grind

variable {model model' : Model}

theorem Counted.empty : Counted .empty := by
  refine ⟨?_, ?_, ?_, ?_, ?_, ?_⟩ <;> simp [Model.empty, look]

/-- A control that was never issued has no owner. -/
theorem Counted.owned_fresh (h : Counted model) (weak : Bool) :
    model.owned model.controls.length weak = 0 := by
  refine countP_eq_zero.mpr fun owner howner => ?_
  have := h.issued owner howner
  simp only [owns, Bool.and_eq_true, decide_eq_true_eq, not_and]
  omega

/-! ### Steps keep the counts -/

variable {base stop : ℕ} {weak : Bool}

theorem Counted.constructed (h : Counted model) {payload : TypeId}
    (external : ∀ id, .handle id ∈ drops →
      ∃ owner, model.owners[id]? = some owner ∧ owner.location = .external) :
    Counted { model with
      nodes, allocations
      owners := moveIntoPayload model.controls.length drops model.owners
        ++ [⟨model.controls.length, false, .external⟩]
      intervals := model.intervals.insert base stop
      controls := model.controls ++ [⟨payload, ⟨1, 1, false, true, true⟩, base, drops, 0⟩] } := by
  have howned (c : ℕ) (weak : Bool) :
      (moveIntoPayload model.controls.length drops model.owners
        ++ [(⟨model.controls.length, false, .external⟩ : Owner)]).countP (owns c weak)
      = model.owned c weak + if model.controls.length = c ∧ false = weak then 1 else 0 := by
    rw [countP_append, countP_moveIntoPayload external, countP_singleton]
    simp [owns, Model.owned]
  have hfresh := h.owned_fresh
  refine ⟨?_, ?_, ?_, ?_, h.nodup, ?_⟩
  · intro owner howner
    rw [length_append, length_singleton]
    obtain hold | hnew := mem_append.mp howner
    · obtain ⟨id, hid⟩ := mem_iff_getElem?.mp hold
      rw [getElem?_moveIntoPayload] at hid
      obtain ⟨owner', hid', rfl⟩ := map_eq_some_iff.mp hid
      have := h.issued owner' (mem_of_getElem? hid')
      split
      · exact Nat.lt_succ_of_lt this
      · exact Nat.lt_succ_of_lt this
    · obtain rfl := mem_singleton.mp hnew
      exact Nat.lt_succ_self _
  · intro c v hv
    rw [look_append] at hv
    split at hv
    · cases hv
      rfl
    · exact h.valid hv
  · intro c v hv
    unfold Model.owned
    rw [howned]
    rw [look_append] at hv
    split at hv
    · next hc =>
      cases hv
      simp [hc, hfresh]
    · next hc =>
      rw [h.strong hv]
      simp [Ne.symm hc]
  · intro c v hv
    unfold Model.owned
    rw [howned]
    rw [look_append] at hv
    split at hv
    · next hc =>
      cases hv
      simp [hc, hfresh, implicitWeak]
    · rw [h.weak hv]
      simp
  · intro c
    dsimp only
    rw [h.pending, look_append]
    constructor
    · rintro ⟨v, hv, hp⟩
      have := lt_of_look hv
      exact ⟨v, by rwa [if_neg (by omega)], hp⟩
    · rintro ⟨v, hv, hp⟩
      split at hv
      · cases hv
        cases hp
      · exact ⟨v, hv, hp⟩

/-- A step that gives one control a new state keeps the counts when the new state has the counts
of that control's owners and the other controls keep theirs. -/
theorem Counted.update (h : Counted model)
    (issued : ∀ owner ∈ model'.owners, owner.control < model'.controls.length)
    (look : ∀ c, look model'.controls c
      = (look model.controls c).map fun v => if k = c then (after, v.2) else v)
    (owned : ∀ c weak, c ≠ k → model'.owned c weak = model.owned c weak)
    (valid : validControlState after = true) (strong : after.strongCount = model'.owned k false)
    (weak : after.weakCount = model'.owned k true + implicitWeak after)
    (known : k < model.controls.length) (nodup : model'.pending.Nodup)
    (pending : ∀ c, c ∈ model'.pending ↔
      if c = k then after.pendingLastStrong = true else c ∈ model.pending) : Counted model' := by
  -- a control of the new model is `k` in its new state, or as it was
  have split {c : ℕ} {v : ControlState × ℕ} (hv : ControlModel.look model'.controls c = some v) :
      c = k ∧ v.1 = after ∨ c ≠ k ∧ ControlModel.look model.controls c = some v := by
    rw [look] at hv
    obtain ⟨u, hu, rfl⟩ := map_eq_some_iff.mp hv
    by_cases hc : k = c
    · exact .inl ⟨hc.symm, by simp [hc]⟩
    · exact .inr ⟨Ne.symm hc, by simp [hc, hu]⟩
  refine ⟨issued, ?_, ?_, ?_, nodup, ?_⟩
  · intro c v hv
    obtain ⟨rfl, hafter⟩ | ⟨hc, hold⟩ := split hv
    · rw [hafter, valid]
    · exact h.valid hold
  · intro c v hv
    obtain ⟨rfl, hafter⟩ | ⟨hc, hold⟩ := split hv
    · rw [hafter, strong]
    · rw [h.strong hold, owned c false hc]
  · intro c v hv
    obtain ⟨rfl, hafter⟩ | ⟨hc, hold⟩ := split hv
    · rw [hafter, weak]
    · rw [h.weak hold, owned c true hc]
  · intro c
    rw [pending]
    by_cases hc : c = k
    · subst hc
      obtain ⟨u, hu⟩ : ∃ u, ControlModel.look model.controls c = some u := by
        simp [ControlModel.look, known]
      simp [look, hu]
    · rw [if_neg hc, h.pending, look]
      simp [Ne.symm hc]

variable {owner : Owner}

theorem Counted.issued_step (h : Counted model) (idle : model.pending = [])
    (held : model.owners[id]? = some owner) (found : model.controls[owner.control]? = some control)
    (issues : Issues control.state weak after) :
    Counted { model with
      owners := model.owners ++ [⟨owner.control, weak, .external⟩]
      controls := model.controls.modify owner.control fun control =>
        { control with state := after } } := by
  have hknown := h.issued owner (mem_of_getElem? held)
  have hfound := look_eq_some found
  have hstrong := h.strong hfound
  have hweak := h.weak hfound
  have howned (c : ℕ) (w : Bool) :
      (model.owners ++ [(⟨owner.control, weak, .external⟩ : Owner)]).countP (owns c w)
      = model.owned c w + if owner.control = c ∧ weak = w then 1 else 0 := by
    rw [countP_append, countP_singleton]
    simp [owns, Model.owned]
  refine h.update (k := owner.control) ?_ (look_setState _ _ · _) ?_ issues.valid ?_ ?_ hknown
    h.nodup ?_
  · intro other hother
    rw [length_modify]
    obtain hold | hnew := mem_append.mp hother
    · exact h.issued other hold
    · obtain rfl := mem_singleton.mp hnew
      exact hknown
  · intro c w hc
    exact (howned c w).trans (by simp [Ne.symm hc])
  · refine Eq.trans ?_ (howned _ _).symm
    cases weak with
    | false => simp [(issues.strong rfl).2, ← hstrong]
    | true => simp [issues.weak rfl, ← hstrong]
  · refine Eq.trans ?_ (congrArg (· + _) (howned _ _).symm)
    cases weak with
    | false =>
      obtain ⟨hpos, hafter⟩ := issues.strong rfl
      simpa [hafter, implicitWeak, hpos] using hweak
    | true =>
      have hafter := issues.weak rfl
      rw [hafter]
      simp only [implicitWeak, and_self, if_true] at hweak ⊢
      omega
  · intro c
    simp [idle, issues.flags.2]

/-- A control whose state is valid and has a strong owner is not pending. -/
theorem implicitWeak_release
    (h : Releases before weak after) : implicitWeak after = implicitWeak before := by
  cases weak with
  | false =>
    obtain ⟨hpos, rfl⟩ := h.strong rfl
    have hone : 0 < before.strongCount - 1 ∨ before.strongCount = 1 := by omega
    unfold implicitWeak
    rw [if_pos (hone.imp_right fun h => decide_eq_true h), if_pos (.inl hpos)]
  | true =>
    obtain ⟨-, rfl⟩ := h.weak rfl
    rfl

theorem Counted.released_step (h : Counted model) (held : model.owners[id]? = some owner)
    (source : Source model id owner.location controls)
    (found : model.controls[owner.control]? = some control)
    (releases : Releases control.state owner.weak after) :
    Counted { model with
      owners := model.owners.modify id fun owner => { owner with location := .dropped }
      controls := controls.modify owner.control fun control => { control with state := after }
      pending := if after.pendingLastStrong then owner.control :: model.pending
        else model.pending
      intervals } := by
  have hknown := h.issued owner (mem_of_getElem? held)
  have hfound := look_eq_some found
  have hstrong := h.strong hfound
  have hweak := h.weak hfound
  have hlive : owner.location ≠ .dropped := by
    intro hdropped
    rw [hdropped] at source
    cases source
  -- the count of the released owner's mode goes down by one
  have howned (c : ℕ) (w : Bool) :
      (model.owners.modify id fun owner => { owner with location := .dropped }).countP (owns c w)
        + (if owner.control = c ∧ owner.weak = w then 1 else 0) = model.owned c w := by
    have := countP_modify (p := owns c w) (f := fun owner => { owner with location := .dropped })
      held
    simpa [owns, hlive, Model.owned] using this
  have hnotMem : owner.control ∉ model.pending := by
    intro hmem
    obtain ⟨v, hv, hp⟩ := (h.pending _).mp hmem
    rw [hfound] at hv
    cases hv
    rw [releases.notPending] at hp
    cases hp
  refine h.update (k := owner.control) ?_ ?_ ?_ releases.valid ?_ ?_ hknown ?_ ?_
  · intro other hother
    rw [length_modify, source.length_eq]
    obtain ⟨j, hj⟩ := mem_iff_getElem?.mp hother
    rw [getElem?_modify] at hj
    obtain ⟨old, hold, rfl⟩ := map_eq_some_iff.mp hj
    have := h.issued old (mem_of_getElem? hold)
    split
    · exact this
    · exact this
  · intro c
    rw [look_setState, source.look]
  · intro c w hc
    have := howned c w
    rwa [if_neg (fun hand => hc hand.1.symm), Nat.add_zero] at this
  · have := howned owner.control false
    dsimp only [Model.owned] at this hstrong ⊢
    cases hw : owner.weak with
    | false =>
      obtain ⟨hpos, rfl⟩ := releases.strong hw
      simp only [hw, and_self, if_true] at this
      simp only
      omega
    | true =>
      obtain ⟨-, rfl⟩ := releases.weak hw
      simpa [hw, ← hstrong] using this.symm
  · rw [implicitWeak_release releases]
    have := howned owner.control true
    dsimp only [Model.owned] at this hweak ⊢
    cases hw : owner.weak with
    | false =>
      obtain ⟨-, rfl⟩ := releases.strong hw
      simp only [hw, Bool.false_eq_true, and_false, if_false, Nat.add_zero] at this
      rw [this]
      exact hweak
    | true =>
      obtain ⟨-, rfl⟩ := releases.weak hw
      simp only [hw, and_self, if_true] at this
      simp only
      omega
  · dsimp only
    split
    · exact nodup_cons.mpr ⟨hnotMem, h.nodup⟩
    · exact h.nodup
  · intro c
    dsimp only
    by_cases hc : c = owner.control
    · subst hc
      split
      · next hp => simp [hp]
      · next hp => simp [hp, hnotMem]
    · rw [if_neg hc]
      split
      · simp [hc]
      · exact Iff.rfl

theorem Counted.finished_step (h : Counted model) (innermost : model.pending.head? = some id)
    (found : model.controls[id]? = some control) (finishes : Finishes control.state after) :
    Counted { model with
      controls := model.controls.modify id fun control => { control with state := after }
      pending := model.pending.tail
      intervals } := by
  have hfound := look_eq_some found
  have hstrong := h.strong hfound
  have hweak := h.weak hfound
  obtain ⟨tail, htail⟩ : ∃ tail, model.pending = id :: tail := by
    cases hp : model.pending with
    | nil => simp [hp] at innermost
    | cons p tail => exact ⟨tail, by simpa [hp] using innermost⟩
  have hnodup := h.nodup
  rw [htail, nodup_cons] at hnodup
  refine h.update (k := id) ?_ (look_setState _ _ · _) (fun _ _ _ => rfl) finishes.valid ?_ ?_
    (lt_of_look hfound) ?_ ?_
  · intro owner howner
    rw [length_modify]
    exact h.issued owner howner
  · rw [finishes.after_eq]
    exact hstrong
  · -- the implicit weak count goes with the pending release
    have hzero := finishes.strongCount
    rw [finishes.after_eq]
    simp only [implicitWeak, finishes.pending, hzero] at hweak ⊢
    simp only [Model.owned] at hweak ⊢
    simp at hweak ⊢
    omega
  · simpa [htail] using hnodup.2
  · intro c
    rw [finishes.after_eq]
    by_cases hc : c = id
    · subst hc
      simp [htail, hnodup.1]
    · simp [htail, hc]

theorem Counted.step (h : Counted model) (step : Step model model') : Counted model' := by
  cases step with
  | refused nodes allocations =>
    exact ⟨h.issued, h.valid, h.strong, h.weak, h.nodup, h.pending⟩
  | constructed idle external => exact h.constructed external
  | issued idle held external found issues => exact h.issued_step idle held found issues
  | released held source found releases => exact h.released_step held source found releases
  | nodeDropped innermost found next =>
    refine ⟨?_, ?_, ?_, ?_, h.nodup, ?_⟩
    · simpa using h.issued
    all_goals simp only [look_bump]
    · exact h.valid
    · exact h.strong
    · exact h.weak
    · exact h.pending
  | finished innermost found complete finishes => exact h.finished_step innermost found finishes

/-! ### Steps keep the intervals -/

theorem Placed.empty : Placed .empty := by
  refine ⟨?_, ?_, ?_, ?_⟩ <;> simp [Model.empty, look, OrderedMap.empty]

theorem Placed.constructed (h : Placed model) {payload : TypeId} (nonempty : base < stop)
    (below : ∀ entry, model.intervals.lastLE? base = some entry → entry.2 ≤ base)
    (above : ∀ entry, model.intervals.firstGE? base = some entry → stop ≤ entry.1) :
    Placed { model with
      nodes, allocations, owners
      intervals := model.intervals.insert base stop
      controls := model.controls ++ [⟨payload, ⟨1, 1, false, true, true⟩, base, drops, 0⟩] } := by
  -- an interval at or below the base ends there: the last one does, and the others end before it
  have hbelow (entry) (hentry : entry ∈ model.intervals.entries) (hle : entry.1 ≤ base) :
      entry.2 ≤ base := by
    cases hlast : model.intervals.lastLE? base with
    | none => exact absurd (OrderedMap.lastLE?_eq_none.mp hlast entry hentry) (by omega)
    | some last =>
      obtain ⟨hmem, hkey, hgreatest⟩ := OrderedMap.lastLE?_eq_some hlast
      have hend := below last hlast
      obtain hlt | rfl := hgreatest entry hentry hle
      · have := h.apart entry hentry last hmem hlt
        omega
      · exact hend
  have habove (entry) (hentry : entry ∈ model.intervals.entries) (hge : base ≤ entry.1) :
      stop ≤ entry.1 := by
    cases hfirst : model.intervals.firstGE? base with
    | none => exact absurd (OrderedMap.firstGE?_eq_none.mp hfirst entry hentry) (by omega)
    | some first =>
      obtain ⟨hmem, hkey, hleast⟩ := OrderedMap.firstGE?_eq_some hfirst
      have hstart := above first hfirst
      obtain hlt | rfl := hleast entry hentry hge
      · omega
      · exact hstart
  -- so no interval starts at the base
  have hfree (entry) (hentry : entry ∈ model.intervals.entries) : entry.1 ≠ base := by
    intro heq
    have := h.nonempty entry hentry
    have := hbelow entry hentry (by omega)
    omega
  have hbase {c : ℕ} {state : ControlState}
      (hv : look model.controls c = some (state, base)) : state.allocated ≠ true := by
    intro hallocated
    obtain ⟨stop', hmem⟩ := (h.keys base).mpr ⟨c, state, hv, hallocated⟩
    exact hfree _ hmem rfl
  refine ⟨?_, ?_, ?_, ?_⟩
  · intro key
    constructor
    · rintro ⟨stop', hmem⟩
      obtain heq | ⟨hold, -⟩ := OrderedMap.mem_insert.mp hmem
      · cases heq
        exact ⟨model.controls.length, ⟨1, 1, false, true, true⟩, by rw [look_append, if_pos rfl],
          rfl⟩
      · obtain ⟨c, state, hv, hallocated⟩ := (h.keys key).mp ⟨stop', hold⟩
        have := lt_of_look hv
        exact ⟨c, state, by rw [look_append, if_neg (by omega), hv], hallocated⟩
    · rintro ⟨c, state, hv, hallocated⟩
      rw [look_append] at hv
      split at hv
      · cases hv
        exact ⟨stop, OrderedMap.mem_insert.mpr (.inl rfl)⟩
      · obtain ⟨stop', hmem⟩ := (h.keys key).mpr ⟨c, state, hv, hallocated⟩
        exact ⟨stop', OrderedMap.mem_insert.mpr (.inr ⟨hmem, hfree _ hmem⟩)⟩
  · intro c d key state other hc hd hsa hoa
    rw [look_append] at hc hd
    split at hc <;> split at hd
    · omega
    · cases hc
      exact absurd hoa (hbase hd)
    · cases hd
      exact absurd hsa (hbase hc)
    · exact h.distinct hc hd hsa hoa
  · intro entry hentry
    obtain rfl | ⟨hold, -⟩ := OrderedMap.mem_insert.mp hentry
    · exact nonempty
    · exact h.nonempty entry hold
  · intro a ha b hb hab
    obtain rfl | ⟨haold, -⟩ := OrderedMap.mem_insert.mp ha <;>
      obtain rfl | ⟨hbold, -⟩ := OrderedMap.mem_insert.mp hb
    · omega
    · exact habove b hbold (by omega)
    · exact hbelow a haold (by omega)
    · exact h.apart a haold b hbold hab

/-- A step that gives one allocated control a new state, and forgets its interval when the new
state is not allocated, keeps the intervals. -/
theorem Placed.update (h : Placed model)
    (found : look model.controls k = some (before, base)) (allocated : before.allocated = true)
    (hlook : ∀ c, look model'.controls c
      = (look model.controls c).map fun v => if k = c then (after, v.2) else v)
    (hintervals : model'.intervals = if after.allocated then model.intervals
      else model.intervals.erase base) : Placed model' := by
  have hsplit {c key : ℕ} {state : ControlState}
      (hv : look model'.controls c = some (state, key)) :
      c = k ∧ state = after ∧ key = base ∨ c ≠ k ∧ look model.controls c = some (state, key) := by
    rw [hlook] at hv
    obtain ⟨u, hu, heq⟩ := map_eq_some_iff.mp hv
    by_cases hc : k = c
    · subst hc
      rw [found] at hu
      cases hu
      simp only [if_true] at heq
      cases heq
      exact .inl ⟨rfl, rfl, rfl⟩
    · rw [if_neg hc] at heq
      exact .inr ⟨Ne.symm hc, heq ▸ hu⟩
  have hself : look model'.controls k = some (after, base) := by
    rw [hlook, found]
    simp
  have hother {c : ℕ} {v : ControlState × ℕ} (hc : c ≠ k) (hv : look model.controls c = some v) :
      look model'.controls c = some v := by
    rw [hlook, hv]
    simp [Ne.symm hc]
  -- the live intervals of the new model, without the case on the new state
  have hmem (entry : ℕ × ℕ) : entry ∈ model'.intervals.entries ↔
      entry ∈ model.intervals.entries ∧ (after.allocated = true ∨ entry.1 ≠ base) := by
    rw [hintervals]
    split
    · next ha => simp [ha]
    · next ha => simp [ha]
  have hsub (entry) (hentry : entry ∈ model'.intervals.entries) :
      entry ∈ model.intervals.entries := ((hmem entry).mp hentry).1
  refine ⟨?_, ?_, fun entry hentry => h.nonempty entry (hsub entry hentry),
    fun a ha b hb => h.apart a (hsub a ha) b (hsub b hb)⟩
  · intro key
    constructor
    · rintro ⟨stop, hentry⟩
      obtain ⟨hold, hkept⟩ := (hmem _).mp hentry
      obtain ⟨c, state, hv, hallocated⟩ := (h.keys key).mp ⟨stop, hold⟩
      by_cases hc : c = k
      · subst hc
        rw [found] at hv
        cases hv
        exact ⟨c, after, hself, by simpa using hkept⟩
      · exact ⟨c, state, hother hc hv, hallocated⟩
    · rintro ⟨c, state, hv, hallocated⟩
      obtain ⟨rfl, rfl, rfl⟩ | ⟨hc, hold⟩ := hsplit hv
      · obtain ⟨stop, hentry⟩ := (h.keys key).mpr ⟨c, before, found, allocated⟩
        exact ⟨stop, (hmem _).mpr ⟨hentry, .inl hallocated⟩⟩
      · obtain ⟨stop, hentry⟩ := (h.keys key).mpr ⟨c, state, hold, hallocated⟩
        refine ⟨stop, (hmem _).mpr ⟨hentry, .inr ?_⟩⟩
        rintro rfl
        exact hc (h.distinct hold found hallocated allocated)
  · intro c d key state other hc hd hsa hoa
    obtain ⟨hck, -, hckey⟩ | ⟨-, hc⟩ := hsplit hc <;>
      obtain ⟨hdk, -, hdkey⟩ | ⟨-, hd⟩ := hsplit hd
    · exact hck.trans hdk.symm
    · subst hck hckey
      exact h.distinct found hd allocated hoa
    · subst hdk hdkey
      exact h.distinct hc found hsa allocated
    · exact h.distinct hc hd hsa hoa

theorem Placed.step (h : Placed model) (hcounted : Counted model) (step : Step model model') :
    Placed model' := by
  cases step with
  | refused nodes allocations => exact ⟨h.keys, h.distinct, h.nonempty, h.apart⟩
  | constructed idle external nonempty below above => exact h.constructed nonempty below above
  | issued idle held external found issues =>
    exact h.update (look_eq_some found) issues.allocated (look_setState _ _ · _)
      (by simp [issues.flags.1])
  | released held source found releases =>
    refine h.update (look_eq_some found) releases.allocated ?_ rfl
    intro c
    rw [look_setState, source.look]
  | nodeDropped innermost found next =>
    refine ⟨?_, ?_, h.nonempty, h.apart⟩
    all_goals simp only [look_bump]
    · exact h.keys
    · exact h.distinct
  | finished innermost found complete finishes =>
    have hvalid := hcounted.valid (look_eq_some found)
    have hallocated : _ := (allocated_iff_of_valid hvalid).mpr
      (by rw [hcounted.weak (look_eq_some found)]; simp [implicitWeak, finishes.pending])
    exact h.update (look_eq_some found) hallocated (look_setState _ _ · _) rfl

/-! ### Accepted event sequences -/

variable {abi : VerifiedOwnershipRuntimeAbi} {layouts : VerifiedLayouts}
  {events : List ControlEventKind}

theorem counted_of_replayAll (h : Model.empty.replayAll abi layouts events = .ok model) :
    Counted model ∧ Placed model :=
  Step.invariant (I := fun model => Counted model ∧ Placed model) ⟨Counted.empty, Placed.empty⟩
    (fun _ _ step h => ⟨h.1.step step, h.2.step h.1 step⟩) h

/-- In every model that an accepted sequence of events reaches, the counts of a control are the
numbers of its live owners, a control is allocated exactly while its weak count is positive, and
the live intervals are those of the allocated controls and do not overlap. -/
theorem replayAll_counts (abi : VerifiedOwnershipRuntimeAbi) (layouts : VerifiedLayouts)
    (events : List ControlEventKind) (model : Model)
    (h : Model.empty.replayAll abi layouts events = .ok model) :
    (∀ c control, model.controls[c]? = some control →
      control.state.strongCount = model.owned c false
      ∧ control.state.weakCount = model.owned c true
        + (if 0 < control.state.strongCount ∨ control.state.pendingLastStrong = true then 1 else 0)
      ∧ (control.state.pendingLastStrong = true ↔ c ∈ model.pending)
      ∧ (control.state.allocated = true ↔ 0 < control.state.weakCount))
    ∧ (∀ base, base ∈ model.intervals.entries.map Prod.fst ↔
      ∃ control ∈ model.controls, control.state.allocated = true ∧ control.base = base)
    ∧ model.intervals.entries.Pairwise fun a b =>
        Disjoint (Set.Ico a.1 a.2) (Set.Ico b.1 b.2) := by
  obtain ⟨hcounted, hplaced⟩ := counted_of_replayAll h
  refine ⟨?_, ?_, ?_⟩
  · intro c control hcontrol
    have hlook := look_eq_some hcontrol
    refine ⟨hcounted.strong hlook, hcounted.weak hlook, ?_,
      allocated_iff_of_valid (hcounted.valid hlook)⟩
    rw [hcounted.pending, hlook]
    simp
  · intro base
    have hkeys := hplaced.keys base
    simp only [List.mem_map, Prod.exists, exists_and_right, exists_eq_right]
    rw [hkeys]
    constructor
    · rintro ⟨c, state, hlook, hallocated⟩
      obtain ⟨control, hcontrol, heq⟩ := map_eq_some_iff.mp hlook
      cases heq
      exact ⟨control, mem_of_getElem? hcontrol, hallocated, rfl⟩
    · rintro ⟨control, hmem, hallocated, rfl⟩
      obtain ⟨c, hc⟩ := mem_iff_getElem?.mp hmem
      exact ⟨c, control.state, look_eq_some hc, hallocated⟩
  · refine model.intervals.sorted.imp_of_mem fun {a b} ha hb hab => ?_
    have := hplaced.apart a ha b hb hab
    rw [Set.disjoint_left]
    intro x hxa hxb
    exact absurd hxb.1 (by have := hxa.2; omega)

/-- The types `i32` and `Shared<i32>`. -/
def cellLayouts : VerifiedLayouts :=
  ⟨0, [7], .linear32V1, [⟨0, .i32, 4, 0⟩, ⟨1, .shared 0, 4, 4⟩], [8],
    sealed_of_ordered (by decide)⟩

/-- An ABI with control blocks for both types. -/
def cellAbi : VerifiedOwnershipRuntimeAbi :=
  ⟨[5], [7], [8], [9],
    [⟨.linear32V1, ⟨[7], 0⟩, 12, 4⟩, ⟨.linear32V1, ⟨[7], 1⟩, 12, 4⟩]⟩

/-- A cell is constructed, a second one takes its only owner as payload, and the owner of the second
is released. -/
def nestedRelease : List ControlEventKind :=
  [.construct ⟨[7], 0⟩ [⟨⟨[7], 0⟩, .copy⟩] .ok 16 12 4 (some 0) (some 0),
   .construct ⟨[7], 1⟩ [⟨⟨[7], 1⟩, .handle 0⟩] .ok 32 12 4 (some 1) (some 1),
   .handle .strongReleaseBegin 1 .ok none (some true) ⟨0, 1, true, true, true⟩]

theorem replayAll_counts_nestedRelease :
    ∃ model, Model.empty.replayAll cellAbi cellLayouts nestedRelease = .ok model
      ∧ model.controls.map Control.state = [⟨1, 1, false, true, true⟩, ⟨0, 1, true, true, true⟩]
      ∧ (∀ c control, model.controls[c]? = some control →
        control.state.strongCount = model.owned c false)
      ∧ model.intervals.entries.Pairwise fun a b =>
          Disjoint (Set.Ico a.1 a.2) (Set.Ico b.1 b.2) :=
  have h := replayAll_counts cellAbi cellLayouts nestedRelease _ rfl
  ⟨_, rfl, rfl, fun c control hcontrol => (h.1 c control hcontrol).1, h.2.2⟩

end Zryna.OwnershipRuntime.ControlModel
