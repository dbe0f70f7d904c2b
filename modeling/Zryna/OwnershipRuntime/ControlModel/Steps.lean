import Zryna.Foundation.Checked
import Zryna.OwnershipRuntime.ControlModel.Model

/-!
# What one accepted event does

`Step` lists the changes that an accepted event can make to the model, one constructor for each
kind of change, with the checks the event passed. `Step.of_replay` reads them off `Model.replay`
once; the invariants of whole traces are then proved against `Step` alone.
-/

namespace Zryna.OwnershipRuntime.ControlModel

open Zryna.Layout Checked List

/-! ### Control transitions -/

/-- The transition of an accepted clone, downgrade or upgrade that issues an owner. -/
structure Issues (before : ControlState) (weak : Bool) (after : ControlState) : Prop where
  allocated : before.allocated = true
  notPending : before.pendingLastStrong = false
  validBefore : validControlState before = true
  valid : validControlState after = true
  strong : weak = false → 0 < before.strongCount
    ∧ after = { before with strongCount := before.strongCount + 1 }
  weak : weak = true → after = { before with weakCount := before.weakCount + 1 }

variable {before : ControlState} {boolResult boolean : Option Bool} {operation : LogicalOperation}
  {status : RuntimeStatus} {message : String} {u : Unit} {result : Option ℕ}

/-- Issuing an owner changes a count and nothing else. -/
theorem Issues.flags {after : ControlState} {weak : Bool} (h : Issues before weak after) :
    after.allocated = true ∧ after.pendingLastStrong = false := by
  cases weak with
  | false =>
    rw [(h.strong rfl).2]
    exact ⟨h.allocated, h.notPending⟩
  | true =>
    rw [h.weak rfl]
    exact ⟨h.allocated, h.notPending⟩

/-- The transition of an accepted release of an owner. -/
structure Releases (before : ControlState) (weak : Bool) (after : ControlState) : Prop where
  allocated : before.allocated = true
  notPending : before.pendingLastStrong = false
  validBefore : validControlState before = true
  valid : validControlState after = true
  strong : weak = false → 0 < before.strongCount
    ∧ after = { before with
      strongCount := before.strongCount - 1, pendingLastStrong := before.strongCount = 1 }
  weak : weak = true → 0 < before.weakCount
    ∧ after = { before with
      weakCount := before.weakCount - 1
      allocated := !(before.weakCount - 1 = 0 && before.strongCount = 0) }

/-- The transition of an accepted end of a last-strong release. -/
structure Finishes (before : ControlState) (after : ControlState) : Prop where
  pending : before.pendingLastStrong = true
  strongCount : before.strongCount = 0
  valid : validControlState after = true
  after_eq : after = { before with
    weakCount := before.weakCount - 1, pendingLastStrong := false, payloadInitialized := false
    allocated := 1 < before.weakCount }

theorem issues_of_validate {after : ControlState}
    (h : validateControlTransition operation before .ok boolResult after = true)
    (hp : before.pendingLastStrong = false) (ha : before.allocated = true)
    (hop : isHandleOperation operation = true) (hr : isRelease operation = false) :
    Issues before (operation = .weakClone || operation = .weakDowngrade) after := by
  obtain ⟨hpre, hbefore, hafter⟩ := preflight_eq_none h (.inl hp)
  unfold validateControlTransition at h
  rw [hpre] at h
  refine ⟨ha, hp, hbefore, hafter, ?_, ?_⟩ <;> intro hw <;>
    cases operation <;> simp_all [isHandleOperation, isRelease]

theorem releases_of_validate {after : ControlState}
    (h : validateControlTransition operation before .ok boolResult after = true)
    (hp : before.pendingLastStrong = false) (ha : before.allocated = true)
    (hr : isRelease operation = true) : Releases before (isWeakOperation operation) after := by
  obtain ⟨hpre, hbefore, hafter⟩ := preflight_eq_none h (.inl hp)
  unfold validateControlTransition at h
  rw [hpre] at h
  refine ⟨ha, hp, hbefore, hafter, fun hw => ?_, fun hw => ?_⟩
  · cases operation <;> simp_all [isWeakOperation, isRelease]
    split at h
    · next hlt =>
      have hne : before.strongCount ≠ 1 := by omega
      exact ⟨by omega, by simp [h.2, hne]⟩
    · obtain ⟨hone, -, hafter⟩ := h
      exact ⟨by omega, by simp [hafter, hone]⟩
  · cases operation <;> simp_all [isWeakOperation, isRelease]
    omega

theorem finishes_of_validate {after : ControlState}
    (h : validateControlTransition .strongReleaseFinish
      { before with payloadInitialized := false } .ok none after = true) :
    Finishes before after := by
  obtain ⟨hpre, -, hafter⟩ := preflight_eq_none h (.inr rfl)
  unfold validateControlTransition at h
  rw [hpre] at h
  simp at h
  exact ⟨h.1.1.1, h.1.1.2, hafter, by simpa using h.2⟩

/-! ### Payload handles -/

variable {abi : VerifiedOwnershipRuntimeAbi} {layouts : VerifiedLayouts}

theorem handle_mem_payloadDropsLoop {nodes : List PayloadNode} {owner : ℕ} (rounds : ℕ)
    (stack : List (ℕ × Bool)) (drops : List Drop)
    (h : .handle owner ∈ payloadDropsLoop layouts nodes rounds stack drops) :
    .handle owner ∈ drops ∨ ∃ node ∈ nodes, node.kind = .handle owner := by
  induction rounds generalizing stack drops with
  | zero => exact .inl h
  | succ rounds ih =>
    match stack with
    | [] => exact .inl h
    | (index, storage) :: stack =>
      unfold payloadDropsLoop at h
      split at h
      · exact .inl h
      · next node hnode =>
        have hmem : node ∈ nodes := mem_of_getElem? hnode
        split at h
        · exact ih _ _ h
        · simpa using ih _ _ h
        · next id hkind =>
          obtain hdrops | hnodes := ih _ _ h
          · obtain hold | hnew := mem_append.mp hdrops
            · exact .inl hold
            · have : owner = id := by simpa using hnew
              exact .inr ⟨node, hmem, this ▸ hkind⟩
          · exact .inr hnodes
        · split at h
          · simpa using ih _ _ h
          · exact ih _ _ h
        · exact ih _ _ h

/-- A handle node that passed the payload check names an external owner. -/
theorem external_of_payloadNode {model : Model} {nodes : List PayloadNode}
    {table table' : PayloadTable} {node : PayloadNode} {index id : ℕ}
    (h : payloadNode layouts model nodes table (node, index) = .ok table')
    (hkind : node.kind = .handle id) :
    ∃ owner, model.owners[id]? = some owner ∧ owner.location = .external := by
  unfold payloadNode at h
  simp only [hkind, bind_eq_ok] at h
  obtain ⟨record, -, h⟩ := h
  have hhandle : ∃ handles', payloadHandle model id record.category
      (record.referencedType.map (brand layouts)) table.handles = .ok handles' := by
    split at h <;> simp_all [violation]
    all_goals exact h.imp fun _ h => h.1
  obtain ⟨handles', hhandle⟩ := hhandle
  unfold payloadHandle at hhandle
  simp only [bind_eq_ok] at hhandle
  obtain ⟨owner, howner, control, -, hhandle⟩ := hhandle
  refine ⟨owner, ?_, ?_⟩
  · cases ho : model.owners[id]? with
    | none => simp [ho, expect, violation] at howner
    | some o => simpa [ho, expect] using howner
  · by_contra hne
    simp [hne, violation] at hhandle

theorem external_of_payload {model : Model} {ty : TypeId} {nodes : List PayloadNode} {total : ℕ}
    {drops : List Drop} (h : model.payload layouts ty nodes = .ok (total, drops)) {id : ℕ}
    (hid : .handle id ∈ drops) :
    ∃ owner, model.owners[id]? = some owner ∧ owner.location = .external := by
  unfold Model.payload at h
  rw [bind_eq_ok] at h
  obtain ⟨total', -, h⟩ := h
  split at h
  · cases h
  split at h
  · cases h
  simp only [bind_eq_ok, pure_eq_ok, Prod.mk.injEq] at h
  obtain ⟨table, htable, _, -, rfl, rfl⟩ := h
  obtain hnil | ⟨node, hnode, hkind⟩ := handle_mem_payloadDropsLoop _ _ _ hid
  · cases hnil
  obtain ⟨index, hindex⟩ := mem_iff_getElem?.mp hnode
  have hentry : (node, index) ∈ nodes.zipIdx := mem_zipIdx_iff_getElem?.mpr hindex
  obtain ⟨t, t', hround⟩ := foldlM_mem htable hentry
  exact external_of_payloadNode hround hkind

/-! ### Steps -/

/-- Where a released owner comes from: the caller, or the next drop of the innermost pending
control, which the release consumes. -/
inductive Source (model : Model) (id : ℕ) : Location → List Control → Prop
  | external (idle : model.pending = []) : Source model id .external model.controls
  | payload {pending : ℕ} {control : Control}
      (innermost : model.pending.head? = some pending)
      (issued : model.controls[pending]? = some control)
      (next : control.drops[control.next]? = some (.handle id)) :
      Source model id (.payload pending) (model.controls.modify pending fun control =>
        { control with next := control.next + 1 })

/-- The changes of one accepted event. -/
inductive Step (model : Model) : Model → Prop
  /-- A failed construction or a refused clone: no control and no owner changes. -/
  | refused (nodes allocations : ℕ) : Step model { model with nodes, allocations }
  | constructed {payload : TypeId} {nodes allocations base stop : ℕ} {drops : List Drop}
      (idle : model.pending = [])
      (external : ∀ id, .handle id ∈ drops →
        ∃ owner, model.owners[id]? = some owner ∧ owner.location = .external)
      (nonempty : base < stop)
      (below : ∀ entry, model.intervals.lastLE? base = some entry → entry.2 ≤ base)
      (above : ∀ entry, model.intervals.firstGE? base = some entry → stop ≤ entry.1) :
      Step model
        { model with
          nodes, allocations
          owners := moveIntoPayload model.controls.length drops model.owners
            ++ [⟨model.controls.length, false, .external⟩]
          intervals := model.intervals.insert base stop
          controls := model.controls ++ [⟨payload, ⟨1, 1, false, true, true⟩, base, drops, 0⟩] }
  | issued {id : ℕ} {owner : Owner} {control : Control} {weak : Bool} {after : ControlState}
      (idle : model.pending = [])
      (held : model.owners[id]? = some owner)
      (external : owner.location = .external)
      (found : model.controls[owner.control]? = some control)
      (issues : Issues control.state weak after) :
      Step model
        { model with
          owners := model.owners ++ [⟨owner.control, weak, .external⟩]
          controls := model.controls.modify owner.control fun control =>
            { control with state := after } }
  | released {id : ℕ} {owner : Owner} {control : Control} {after : ControlState}
      {controls : List Control}
      (held : model.owners[id]? = some owner)
      (source : Source model id owner.location controls)
      (found : model.controls[owner.control]? = some control)
      (releases : Releases control.state owner.weak after) :
      Step model
        { model with
          owners := model.owners.modify id fun owner => { owner with location := .dropped }
          controls := controls.modify owner.control fun control => { control with state := after }
          pending := if after.pendingLastStrong then owner.control :: model.pending
            else model.pending
          intervals := if after.allocated then model.intervals
            else model.intervals.erase control.base }
  | nodeDropped {id node : ℕ} {control : Control}
      (innermost : model.pending.head? = some id)
      (found : model.controls[id]? = some control)
      (next : control.drops[control.next]? = some (.node node)) :
      Step model
        { model with
          controls := model.controls.modify id fun control =>
            { control with next := control.next + 1 } }
  | finished {id : ℕ} {control : Control} {after : ControlState}
      (innermost : model.pending.head? = some id)
      (found : model.controls[id]? = some control)
      (complete : control.next = control.drops.length)
      (finishes : Finishes control.state after) :
      Step model
        { model with
          controls := model.controls.modify id fun control => { control with state := after }
          pending := model.pending.tail
          intervals := if after.allocated then model.intervals
            else model.intervals.erase control.base }

variable {model model' : Model}

theorem Step.of_construct {payload : TypeId} {nodes : List PayloadNode}
    {base size alignment : ℕ} {control owner : Option ℕ}
    (h : model.construct abi layouts payload nodes status base size alignment control owner
      = .ok model') : Step model model' := by
  unfold Model.construct at h
  simp only [bind_eq_ok] at h
  obtain ⟨_, hidle, layout, -, _, -, ⟨total, drops⟩, hpayload, allocations, -, h⟩ := h
  have hidle : model.pending = [] := by
    unfold Model.requirePublicationPhase require at hidle
    split at hidle
    · next hempty => simpa using hempty
    · cases hidle
  split at h
  · -- a failure leaves the counters, nothing else
    split at h
    · cases h
    · cases h
      exact .refused total allocations
  · split at h
    · cases h
    split at h
    · cases h
    split at h
    · cases h
    next hplace =>
    split at h
    · cases h
    split at h
    · cases h
    simp only [bind_eq_ok] at h
    obtain ⟨fresh, -, h⟩ := h
    split at h
    · cases h
    cases h
    simp only [Bool.or_eq_true, not_or, decide_eq_true_eq, Option.any_eq_true, not_exists,
      not_and] at hplace
    obtain ⟨⟨⟨⟨⟨⟨hbase, hsize⟩, -⟩, -⟩, -⟩, hbelow⟩, habove⟩ := hplace
    refine .constructed hidle (fun id => external_of_payload hpayload) (by omega) ?_ ?_
    · intro entry hentry
      exact Nat.not_lt.mp (hbelow entry hentry)
    · intro entry hentry
      exact Nat.not_lt.mp (habove entry hentry)

theorem expect_eq_ok {α : Type} {o : Option α} {a : α} : expect message o = .ok a ↔ o = some a := by
  cases o <;> simp [expect, violation]

theorem indexed_eq_ok {α : Type} {o : Option α} {a : α} : indexed o = .ok a ↔ o = some a := by
  cases o <;> simp [indexed, panicked]

theorem require_eq_ok {c : Bool} : require c message = .ok u ↔ c = true := by
  unfold require
  split <;> simp_all [violation]

theorem Model.nextDrop_eq_ok {id : ℕ} {expected : Drop}
    (h : model.nextDrop id expected = .ok model') :
    ∃ control, model.pending.head? = some id ∧ model.controls[id]? = some control
      ∧ control.drops[control.next]? = some expected
      ∧ model' = { model with controls := model.controls.modify id fun control =>
          { control with next := control.next + 1 } } := by
  unfold Model.nextDrop at h
  simp only [bind_eq_ok, require_eq_ok, indexed_eq_ok, decide_eq_true_eq] at h
  obtain ⟨_, hhead, control, hcontrol, h⟩ := h
  split at h
  · cases h
  next hnext =>
  cases h
  exact ⟨control, hhead, hcontrol, not_not.mp hnext, rfl⟩

theorem Model.setState_self {id : ℕ} {control : Control}
    (h : model.controls[id]? = some control) : model.setState id control.state = model := by
  have hcontrols : (model.controls.modify id fun c => { c with state := control.state })
      = model.controls := by
    apply ext_getElem?
    intro j
    rw [getElem?_modify]
    by_cases hj : id = j
    · subst hj
      simp [h]
    · simp [hj]
  unfold Model.setState
  rw [hcontrols]

theorem validateTransition_eq_ok {after : ControlState} :
    validateTransition operation before status boolResult after = .ok u ↔
      validateControlTransition operation before status boolResult after = true := by
  unfold validateTransition
  split <;> simp_all

/-- The checks and the effect of an accepted operation on a handle. -/
theorem Model.handle_eq_ok {id : ℕ} {after : ControlState}
    (h : model.handle operation id status result boolean after = .ok model') :
    ∃ owner control released,
      model.owners[id]? = some owner ∧ owner.location ≠ .dropped
      ∧ model.checkAvailable operation owner = .ok ()
      ∧ isWeakOperation operation = owner.weak ∧ isHandleOperation operation = true
      ∧ model.controls[owner.control]? = some control
      ∧ control.state.pendingLastStrong = false ∧ control.state.allocated = true
      ∧ validateControlTransition operation control.state status boolean after = true
      ∧ model.releaseOwner (isRelease operation) status id owner = .ok released
      ∧ model' = Model.forget
          { released.setState owner.control after with
            owners := released.owners ++
              if !isRelease operation && status = .ok then
                [⟨owner.control, operation = .weakClone || operation = .weakDowngrade, .external⟩]
              else []
            pending := if after.pendingLastStrong then owner.control :: released.pending
              else released.pending }
          control.base after := by
  unfold Model.handle at h
  simp only [bind_eq_ok, expect_eq_ok] at h
  obtain ⟨owner, howner, h⟩ := h
  split at h
  · cases h
  next hlive =>
  simp only [bind_eq_ok, require_eq_ok, indexed_eq_ok, Bool.and_eq_true,
    decide_eq_true_eq] at h
  obtain ⟨_, havailable, _, ⟨hweak, hop⟩, control, hcontrol, h⟩ := h
  split at h
  · cases h
  next hstate =>
  simp only [Bool.or_eq_true, not_or, Bool.not_eq_true, Bool.not_eq_eq_eq_not] at hstate
  simp only [bind_eq_ok, validateTransition_eq_ok] at h
  obtain ⟨_, hvalid, fresh, -, h⟩ := h
  split at h
  · cases h
  simp only [bind_eq_ok, pure_eq_ok] at h
  obtain ⟨released, hreleased, rfl⟩ := h
  refine ⟨owner, control, released, howner, hlive, havailable, hweak, hop, hcontrol,
    hstate.1.1, by simpa using hstate.1.2, hvalid, hreleased, ?_⟩
  congr 1
  split <;> split <;> simp_all [Model.setState]

/-- A released owner comes from the caller or is the next drop. -/
theorem Model.releaseOwner_eq_ok {id : ℕ} {owner : Owner} {released : Model}
    (hlive : owner.location ≠ .dropped) (havailable : model.checkAvailable operation owner = .ok ())
    (h : model.releaseOwner true status id owner = .ok released) :
    status = .ok ∧ ∃ controls, Source model id owner.location controls
      ∧ released = { model with
          owners := model.owners.modify id fun owner => { owner with location := .dropped }
          controls } := by
  unfold Model.releaseOwner at h
  simp only [Bool.not_true, Bool.false_eq_true, if_false] at h
  split at h
  · cases h
  next hstatus =>
  refine ⟨not_not.mp hstatus, ?_⟩
  unfold Model.checkAvailable at havailable
  cases hlocation : owner.location with
  | dropped => exact absurd hlocation hlive
  | external =>
    rw [hlocation] at h havailable
    cases h
    refine ⟨_, .external ?_, rfl⟩
    cases hpending : model.pending with
    | nil => rfl
    | cons p pending => simp [hpending, require, violation] at havailable
  | payload pending =>
    rw [hlocation] at h
    rw [map_eq_ok] at h
    obtain ⟨dropped, hnext, rfl⟩ := h
    obtain ⟨control, hhead, hcontrol, hdrop, rfl⟩ := Model.nextDrop_eq_ok hnext
    exact ⟨_, .payload hhead hcontrol hdrop, rfl⟩

theorem Step.of_handle {id : ℕ} {after : ControlState}
    (h : model.handle operation id status result boolean after = .ok model') :
    Step model model' := by
  obtain ⟨owner, control, released, howner, hlive, havailable, hweak, hop, hcontrol, hpending,
    hallocated, hvalid, hreleased, rfl⟩ := Model.handle_eq_ok h
  cases hr : isRelease operation with
  | true =>
    rw [hr] at hreleased
    obtain ⟨rfl, controls, hsource, rfl⟩ := Model.releaseOwner_eq_ok hlive havailable hreleased
    have hreleases := releases_of_validate hvalid hpending hallocated hr
    rw [hweak] at hreleases
    convert Step.released howner hsource hcontrol hreleases using 1
    unfold Model.forget
    split <;> simp_all [Model.setState]
  | false =>
    have hmodel : model = released := by simpa [Model.releaseOwner, hr] using hreleased
    subst hmodel
    by_cases hstatus : status = .ok
    · subst hstatus
      have hissues := issues_of_validate hvalid hpending hallocated hop hr
      have hafter := hissues.flags
      -- outside a release the owner is external and no control is pending
      have hsource : model.pending = [] ∧ owner.location = .external := by
        unfold Model.checkAvailable at havailable
        cases hlist : model.pending with
        | nil => simpa [hlist, require_eq_ok] using havailable
        | cons p pending => simp [hlist, hr, require, violation] at havailable
      convert Step.issued hsource.1 howner hsource.2 hcontrol hissues using 1
      simp [Model.forget, hafter, Model.setState]
    · obtain rfl := unchanged_of_status hvalid hpending hstatus
      convert (Step.refused model.nodes model.allocations : Step model _) using 1
      simp [Model.forget, hallocated, hpending, hstatus, Model.setState_self hcontrol]

theorem Step.of_finish {id : ℕ} {after : ControlState}
    (h : model.finish id after = .ok model') : Step model model' := by
  unfold Model.finish at h
  simp only [bind_eq_ok, require_eq_ok, indexed_eq_ok, decide_eq_true_eq] at h
  obtain ⟨_, hhead, control, hcontrol, h⟩ := h
  split at h
  · cases h
  next hcomplete =>
  simp only [bind_eq_ok, validateTransition_eq_ok, pure_eq_ok] at h
  obtain ⟨_, hvalid, rfl⟩ := h
  convert Step.finished hhead hcontrol (not_not.mp hcomplete) (finishes_of_validate hvalid) using 1
  unfold Model.forget
  split <;> simp_all [Model.setState]

theorem Step.of_replay {event : ControlEventKind}
    (h : model.replay abi layouts event = .ok model') : Step model model' := by
  cases event with
  | construct payload nodes status base size alignment control owner => exact .of_construct h
  | handle operation owner status result boolean after => exact .of_handle h
  | dropPayloadNode control node =>
    obtain ⟨control, hhead, hcontrol, hdrop, rfl⟩ := Model.nextDrop_eq_ok h
    exact .nodeDropped hhead hcontrol hdrop
  | finish control after => exact .of_finish h

/-- What every step keeps holds of every model that an accepted sequence of events reaches. -/
theorem Step.invariant {I : Model → Prop} (init : I .empty)
    (step : ∀ model model', Step model model' → I model → I model')
    {events : List ControlEventKind} (h : Model.empty.replayAll abi layouts events = .ok model) :
    I model :=
  foldlM_invariant (fun s _ s' h => step s s' (.of_replay h)) h init

end Zryna.OwnershipRuntime.ControlModel
