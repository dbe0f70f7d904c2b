import Zryna.OwnershipRuntime.ControlModel.Counts

/-!
# Accepted traces leak nothing

The exit check of a trace looks at the owners the caller still has and at nothing else. That
nothing stays behind in payloads rests on `Held`: an owner in the payload of a control is a drop
still to be made by that control, the control has a strong owner or its last-strong release is
under way, and the owner's own control was issued before the control that holds it. A finished
release has made all its drops, so no owner is left in a released payload, and following holders
upwards ends at an owner outside every payload.

Whatever follows, nothing that events have ended begins again (`replayAll_ages`).
-/

namespace Zryna.OwnershipRuntime.ControlModel

open Zryna.Layout Checked List

/-- The control has a payload: a strong owner or an unfinished last-strong release. -/
def ControlState.HasPayload (state : ControlState) : Prop :=
  0 < state.strongCount ∨ state.pendingLastStrong = true

variable {state after before : ControlState} {drops : List Drop} {weak : Bool}
  {expectedOwners : List ExpectedOwner}

theorem implicitWeak_of_hasPayload (h : ControlState.HasPayload state) : implicitWeak state = 1 :=
  if_pos h

/-- Owners in payloads are drops to come of their holders, which were issued later than what they
own. -/
def Held (model : Model) : Prop :=
  ∀ {id : ℕ} {owner : Owner} {c : ℕ}, model.owners[id]? = some owner →
    owner.location = .payload c →
    owner.control < c ∧ ∃ control, model.controls[c]? = some control
      ∧ .handle id ∈ control.drops.drop control.next ∧ ControlState.HasPayload control.state

variable {model model' : Model}

/-- A drop that is not the next one is still to come after the next one. -/
theorem mem_drop_succ {next : ℕ} {d e : Drop}
    (hnext : drops[next]? = some d) (hne : e ≠ d) (h : e ∈ drops.drop next) :
    e ∈ drops.drop (next + 1) := by
  obtain ⟨hlt, heq⟩ := List.getElem?_eq_some_iff.mp hnext
  rw [drop_eq_getElem_cons hlt, heq] at h
  exact (mem_cons.mp h).resolve_left hne

theorem Issues.hasPayload (h : Issues before weak after) (hp : ControlState.HasPayload before) :
    ControlState.HasPayload after := by
  cases weak with
  | false =>
    rw [(h.strong rfl).2]
    exact .inl (Nat.succ_pos _)
  | true =>
    rw [h.weak rfl]
    exact hp

theorem Releases.hasPayload (h : Releases before weak after) (hp : ControlState.HasPayload before) :
    ControlState.HasPayload after := by
  cases weak with
  | false =>
    obtain ⟨hpos, rfl⟩ := h.strong rfl
    unfold ControlState.HasPayload
    simp only [decide_eq_true_eq]
    omega
  | true =>
    obtain ⟨-, rfl⟩ := h.weak rfl
    exact hp

/-! ### Steps -/

theorem Held.constructed (h : Held model) (hcounted : Counted model) {payload : TypeId}
    {nodes allocations base stop : ℕ} :
    Held { model with
      nodes, allocations
      owners := moveIntoPayload model.controls.length drops model.owners
        ++ [⟨model.controls.length, false, .external⟩]
      intervals := model.intervals.insert base stop
      controls := model.controls ++ [⟨payload, ⟨1, 1, false, true, true⟩, base, drops, 0⟩] } := by
  intro id owner c hid hlocation
  -- the new owner is outside
  have hmoved : (moveIntoPayload model.controls.length drops model.owners)[id]? = some owner := by
    rw [getElem?_append] at hid
    split at hid
    · exact hid
    · have := mem_singleton.mp (mem_of_getElem? hid)
      rw [this] at hlocation
      cases hlocation
  rw [getElem?_moveIntoPayload] at hmoved
  obtain ⟨old, hold, rfl⟩ := Option.map_eq_some_iff.mp hmoved
  have hissued := hcounted.issued old (mem_of_getElem? hold)
  split at hlocation
  · next hdrop =>
    cases hlocation
    refine ⟨by simpa [hdrop] using hissued, _, getElem?_concat_length, ?_, .inl Nat.one_pos⟩
    simpa using hdrop
  · next hdrop =>
    obtain ⟨hlt, control, hcontrol, hcome, hpayload⟩ := h hold hlocation
    have hc := (List.getElem?_eq_some_iff.mp hcontrol).1
    refine ⟨by simpa [hdrop] using hlt, control, ?_, hcome, hpayload⟩
    rw [getElem?_append_left hc, hcontrol]

/-- Consuming the drop of one owner keeps the drops of the others to come. -/
theorem Source.held {id other : ℕ} {location : Location} {controls : List Control}
    (source : Source model id location controls) (hne : other ≠ id) {c : ℕ} {control : Control}
    (hcontrol : model.controls[c]? = some control)
    (hcome : .handle other ∈ control.drops.drop control.next) :
    ∃ control', controls[c]? = some control' ∧ control'.state = control.state
      ∧ .handle other ∈ control'.drops.drop control'.next := by
  cases source with
  | external => exact ⟨control, hcontrol, rfl, hcome⟩
  | payload innermost issued next =>
    refine ⟨_, by rw [getElem?_modify, hcontrol]; rfl, ?_⟩
    split
    · next hc =>
      subst hc
      rw [issued] at hcontrol
      cases hcontrol
      exact ⟨rfl, mem_drop_succ next (by simpa using hne) hcome⟩
    · exact ⟨rfl, hcome⟩

theorem Held.step (h : Held model) (hcounted : Counted model) (step : Step model model') :
    Held model' := by
  cases step with
  | refused nodes allocations => exact h
  | constructed idle external => exact h.constructed hcounted
  | issued idle held external found issues =>
    intro id owner c hid hlocation
    rw [getElem?_append] at hid
    split at hid
    · obtain ⟨hlt, control, hcontrol, hcome, hpayload⟩ := h hid hlocation
      refine ⟨hlt, _, by rw [getElem?_modify, hcontrol]; rfl, ?_⟩
      split
      · next hc =>
        subst hc
        rw [found] at hcontrol
        cases hcontrol
        exact ⟨hcome, issues.hasPayload hpayload⟩
      · exact ⟨hcome, hpayload⟩
    · have := mem_singleton.mp (mem_of_getElem? hid)
      rw [this] at hlocation
      cases hlocation
  | @released released _ _ _ _ held source found releases =>
    intro id owner c hid hlocation
    rw [getElem?_modify] at hid
    obtain ⟨old, hold, rfl⟩ := Option.map_eq_some_iff.mp hid
    by_cases hreleased : released = id
    · rw [if_pos hreleased] at hlocation
      cases hlocation
    · rw [if_neg hreleased] at hlocation ⊢
      obtain ⟨hlt, control, hcontrol, hcome, hpayload⟩ := h hold hlocation
      obtain ⟨control', hcontrol', hstate, hcome'⟩ :=
        source.held (Ne.symm hreleased) hcontrol hcome
      refine ⟨hlt, _, by rw [getElem?_modify, hcontrol']; rfl, ?_⟩
      split
      · next hc =>
        subst hc
        rw [found] at hcontrol
        cases hcontrol
        exact ⟨hcome', releases.hasPayload hpayload⟩
      · exact ⟨hcome', by rwa [hstate]⟩
  | nodeDropped innermost found next =>
    intro id owner c hid hlocation
    obtain ⟨hlt, control, hcontrol, hcome, hpayload⟩ := h hid hlocation
    refine ⟨hlt, _, by rw [getElem?_modify, hcontrol]; rfl, ?_⟩
    split
    · next hc =>
      subst hc
      rw [found] at hcontrol
      cases hcontrol
      exact ⟨mem_drop_succ next (by simp) hcome, hpayload⟩
    · exact ⟨hcome, hpayload⟩
  | finished innermost found complete finishes =>
    intro id owner c hid hlocation
    obtain ⟨hlt, control, hcontrol, hcome, hpayload⟩ := h hid hlocation
    refine ⟨hlt, _, by rw [getElem?_modify, hcontrol]; rfl, ?_⟩
    split
    · next hc =>
      -- a finished release has no drop left, so nothing is in its payload
      subst hc
      rw [found] at hcontrol
      cases hcontrol
      rw [complete, drop_length] at hcome
      cases hcome
    · exact ⟨hcome, hpayload⟩

/-! ### Reachability -/

/-- The payload of control `c` holds a handle of control `d`. -/
def Holds (model : Model) (c d : ℕ) : Prop :=
  ∃ owner ∈ model.owners, owner.location = .payload c ∧ owner.control = d

/-- A live owner of a control is counted. -/
theorem owned_pos {c : ℕ} : 0 < model.owned c weak ↔
    ∃ owner ∈ model.owners, owner.control = c ∧ owner.weak = weak
      ∧ owner.location ≠ .dropped := by
  unfold Model.owned
  rw [countP_pos_iff]
  simp [owns, and_assoc]

/-- An allocated control has a live owner when no release is under way. -/
theorem Counted.exists_owner (h : Counted model) (idle : model.pending = []) {c : ℕ}
    {control : Control} (hcontrol : model.controls[c]? = some control)
    (hallocated : control.state.allocated = true) :
    ∃ owner ∈ model.owners, owner.control = c ∧ owner.location ≠ .dropped := by
  have hlook := look_eq_some hcontrol
  have hpos := (allocated_iff_of_valid (h.valid hlook)).mp hallocated
  have hnot : control.state.pendingLastStrong ≠ true := by
    intro hp
    have := (h.pending c).mpr ⟨_, hlook, hp⟩
    simp [idle] at this
  have hsome : 0 < model.owned c false ∨ 0 < model.owned c true := by
    rw [← h.strong hlook]
    have hweak := h.weak hlook
    unfold implicitWeak at hweak
    by_cases hstrong : 0 < control.state.strongCount
    · exact .inl hstrong
    · refine .inr ?_
      rw [if_neg (by simp [hstrong, hnot])] at hweak
      omega
  obtain hstrong | hweak := hsome
  · obtain ⟨owner, hmem, hc, -, hlive⟩ := owned_pos.mp hstrong
    exact ⟨owner, hmem, hc, hlive⟩
  · obtain ⟨owner, hmem, hc, -, hlive⟩ := owned_pos.mp hweak
    exact ⟨owner, hmem, hc, hlive⟩

variable {owner : Owner}

/-- A live owner keeps its control allocated. -/
theorem Counted.allocated_of_owner (h : Counted model)
    (howner : owner ∈ model.owners) (hlive : owner.location ≠ .dropped) :
    ∃ control, model.controls[owner.control]? = some control
      ∧ control.state.allocated = true := by
  have hlt := h.issued owner howner
  obtain ⟨control, hcontrol⟩ : ∃ control, model.controls[owner.control]? = some control :=
    ⟨_, getElem?_eq_getElem hlt⟩
  have hlook := look_eq_some hcontrol
  refine ⟨control, hcontrol, (allocated_iff_of_valid (h.valid hlook)).mpr ?_⟩
  have howned : 0 < model.owned owner.control owner.weak :=
    owned_pos.mpr ⟨owner, howner, rfl, rfl, hlive⟩
  have hstrong := h.strong hlook
  have hweak := h.weak hlook
  cases hw : owner.weak with
  | false =>
    rw [hw, ← hstrong] at howned
    rw [hweak, implicitWeak_of_hasPayload (.inl howned)]
    exact Nat.succ_pos _
  | true =>
    rw [hw] at howned
    omega

/-- When no release is under way, every allocated control is reached from an external owner through
owners in payloads. The induction goes from a control to the later control that holds it. -/
theorem Held.reachable (h : Held model) (hcounted : Counted model) (idle : model.pending = [])
    {c : ℕ} {control : Control} (hcontrol : model.controls[c]? = some control)
    (hallocated : control.state.allocated = true) :
    ∃ owner ∈ model.owners, owner.location = .external
      ∧ Relation.ReflTransGen (Holds model) owner.control c := by
  obtain ⟨owner, hmem, rfl, hlive⟩ := hcounted.exists_owner idle hcontrol hallocated
  cases hlocation : owner.location with
  | dropped => exact absurd hlocation hlive
  | external => exact ⟨owner, hmem, hlocation, .refl⟩
  | payload holder =>
    obtain ⟨id, hid⟩ := mem_iff_getElem?.mp hmem
    obtain ⟨hlt, other, hother, -, hpayload⟩ := h hid hlocation
    have hlook := look_eq_some hother
    have hbound := (List.getElem?_eq_some_iff.mp hother).1
    have hotherAllocated : other.state.allocated = true := by
      refine (allocated_iff_of_valid (hcounted.valid hlook)).mpr ?_
      rw [hcounted.weak hlook, implicitWeak_of_hasPayload hpayload]
      exact Nat.succ_pos _
    obtain ⟨root, hroot, hexternal, hpath⟩ := Held.reachable h hcounted idle hother hotherAllocated
    exact ⟨root, hroot, hexternal, hpath.tail ⟨owner, hmem, hlocation, rfl⟩⟩
termination_by model.controls.length - c
decreasing_by omega

/-! ### Accepted traces -/

variable {abi : VerifiedOwnershipRuntimeAbi} {layouts : VerifiedLayouts}

/-- The sites of an accepted trace are its events in order. -/
theorem replayAll_of_sites {events : List ControlEvent} {first : ℕ}
    (h : (events.zipIdx first).foldlM (replaySite abi layouts) model = .ok model') :
    model.replayAll abi layouts (events.map ControlEvent.kind) = .ok model' := by
  unfold Model.replayAll
  induction events generalizing model first with
  | nil => exact h
  | cons event events ih =>
    rw [zipIdx_cons, foldlM_cons, bind_eq_ok] at h
    obtain ⟨next, hsite, h⟩ := h
    unfold replaySite at hsite
    rw [bind_eq_ok] at hsite
    obtain ⟨_, -, hreplay⟩ := hsite
    rw [map_cons, foldlM_cons, bind_eq_ok]
    exact ⟨next, hreplay, ih h⟩

/-- What an accepted trace went through. -/
theorem verifyControlTrace_eq_ok {invocation : ℕ}
    {trace : ControlTrace} {verified : VerifiedControlTrace}
    (h : verifyControlTrace abi layouts invocation expectedOwners trace = .ok verified) :
    ∃ model, Model.empty.replayAll abi layouts (trace.events.map ControlEvent.kind) = .ok model
      ∧ model.pending = [] ∧ model.surviving = .ok expectedOwners
      ∧ verified.states = model.controls.map Control.state
      ∧ verified.liveOwners = model.owners.countP fun owner => owner.location ≠ .dropped := by
  unfold verifyControlTrace at h
  simp only [bind_eq_ok, pure_eq_ok, require_eq_ok, List.isEmpty_iff,
    decide_eq_true_eq] at h
  obtain ⟨_, -, _, -, model, hmodel, _, hidle, surviving, hsurviving, _, rfl, rfl⟩ := h
  exact ⟨model, replayAll_of_sites hmodel, hidle, hsurviving, rfl, rfl⟩

/-- The surviving owners are the external ones. -/
theorem Model.mem_surviving (h : model.surviving = .ok expectedOwners)
    (howner : owner ∈ model.owners) (hexternal : owner.location = .external) :
    ∃ expected ∈ expectedOwners, model.owners[expected.owner]? = some owner
      ∧ expected.control = owner.control := by
  obtain ⟨id, hid⟩ := mem_iff_getElem?.mp howner
  have hentry : (owner, id) ∈ model.owners.zipIdx.filter fun entry =>
      entry.1.location = .external := by
    refine mem_filter.mpr ⟨mem_zipIdx_iff_getElem?.mpr hid, ?_⟩
    simpa using hexternal
  unfold Model.surviving at h
  obtain ⟨expected, hmem, hexpected⟩ := mapM_mem h hentry
  split at hexpected
  · cases hexpected
    exact ⟨_, hmem, hid, rfl⟩
  · cases hexpected

theorem released_of_valid (h : validControlState state = true)
    (hallocated : state.allocated ≠ true) : state = ⟨0, 0, false, false, false⟩ := by
  obtain ⟨strong, weak, pending, payload, allocated⟩ := state
  unfold validControlState at h
  simp_all

theorem held_of_replayAll {events : List ControlEventKind}
    (h : Model.empty.replayAll abi layouts events = .ok model) : Counted model ∧ Held model :=
  Step.invariant (I := fun model => Counted model ∧ Held model)
    ⟨Counted.empty, by intro id owner c hid; simp [Model.empty] at hid⟩
    (fun _ _ step h => ⟨h.1.step step, Held.step h.2 h.1 step⟩) h

/-- An accepted trace leaks nothing: without expected owners it ends with every owner dropped and
every control released, and in general every control still allocated is reached from an expected
owner through the handles in payloads. -/
theorem verifyControlTrace_leak_free (abi : VerifiedOwnershipRuntimeAbi)
    (layouts : VerifiedLayouts) (invocation : ℕ) (expectedOwners : List ExpectedOwner)
    (trace : ControlTrace) (verified : VerifiedControlTrace)
    (h : verifyControlTrace abi layouts invocation expectedOwners trace = .ok verified) :
    (expectedOwners = [] → verified.liveOwners = 0
      ∧ ∀ state ∈ verified.states, state = ⟨0, 0, false, false, false⟩)
    ∧ ∃ model, Model.empty.replayAll abi layouts (trace.events.map ControlEvent.kind) = .ok model
      ∧ verified.states = model.controls.map Control.state
      ∧ ∀ c control, model.controls[c]? = some control → control.state.allocated = true →
        ∃ expected ∈ expectedOwners, ∃ owner, model.owners[expected.owner]? = some owner
          ∧ owner.location = .external ∧ owner.control = expected.control
          ∧ Relation.ReflTransGen (Holds model) expected.control c := by
  obtain ⟨model, hmodel, hidle, hsurviving, hstates, hlive⟩ := verifyControlTrace_eq_ok h
  obtain ⟨hcounted, hheld⟩ := held_of_replayAll hmodel
  have hreach : ∀ c control, model.controls[c]? = some control →
      control.state.allocated = true →
      ∃ expected ∈ expectedOwners, ∃ owner, model.owners[expected.owner]? = some owner
        ∧ owner.location = .external ∧ owner.control = expected.control
        ∧ Relation.ReflTransGen (Holds model) expected.control c := by
    intro c control hcontrol hallocated
    obtain ⟨owner, howner, hexternal, hpath⟩ :=
      hheld.reachable hcounted hidle hcontrol hallocated
    obtain ⟨expected, hmem, hid, heq⟩ := Model.mem_surviving hsurviving howner hexternal
    exact ⟨expected, hmem, owner, hid, hexternal, heq.symm, heq ▸ hpath⟩
  refine ⟨?_, model, hmodel, hstates, hreach⟩
  rintro rfl
  have hnone : ∀ (c : ℕ) (control : Control), model.controls[c]? = some control →
      control.state.allocated ≠ true := by
    intro c control hcontrol hallocated
    obtain ⟨expected, hmem, -⟩ := hreach c control hcontrol hallocated
    cases hmem
  constructor
  · rw [hlive, countP_eq_zero]
    intro owner howner hlocation
    obtain ⟨control, hcontrol, hallocated⟩ :=
      hcounted.allocated_of_owner howner (by simpa using hlocation)
    exact hnone _ _ hcontrol hallocated
  · intro state hstate
    rw [hstates] at hstate
    obtain ⟨control, hmem, rfl⟩ := mem_map.mp hstate
    obtain ⟨c, hc⟩ := mem_iff_getElem?.mp hmem
    exact released_of_valid (hcounted.valid (look_eq_some hc)) (hnone c control hc)

/-- `nestedRelease` followed to its end: the inner owner is the one drop of the outer control. -/
def completeRelease : ControlTrace :=
  ⟨3, [5], .linear32V1,
    [⟨0, .construct ⟨[7], 0⟩ [⟨⟨[7], 0⟩, .copy⟩] .ok 16 12 4 (some 0) (some 0)⟩,
     ⟨1, .construct ⟨[7], 1⟩ [⟨⟨[7], 1⟩, .handle 0⟩] .ok 32 12 4 (some 1) (some 1)⟩,
     ⟨2, .handle .strongReleaseBegin 1 .ok none (some true) ⟨0, 1, true, true, true⟩⟩,
     ⟨3, .handle .strongReleaseBegin 0 .ok none (some true) ⟨0, 1, true, true, true⟩⟩,
     ⟨4, .finish 0 ⟨0, 0, false, false, false⟩⟩,
     ⟨5, .finish 1 ⟨0, 0, false, false, false⟩⟩]⟩

theorem verifyControlTrace_leak_free_completeRelease :
    ∃ verified, verifyControlTrace cellAbi cellLayouts 3 [] completeRelease = .ok verified
      ∧ verified.liveOwners = 0
      ∧ ∀ state ∈ verified.states, state = ⟨0, 0, false, false, false⟩ :=
  ⟨_, rfl, (verifyControlTrace_leak_free cellAbi cellLayouts 3 [] completeRelease _ rfl).1 rfl⟩

/-! ### What events never undo -/

variable {abi : VerifiedOwnershipRuntimeAbi} {layouts : VerifiedLayouts}

/-- A payload that is gone does not come back, and a freed control stays as it is. -/
structure Ages (before after : ControlState) : Prop where
  gone : ¬ControlState.HasPayload before → ¬ControlState.HasPayload after
  freed : before.allocated = false → before.pendingLastStrong = false → after = before

theorem Ages.refl (state : ControlState) : Ages state state := ⟨id, fun _ _ => rfl⟩

theorem Issues.ages (h : Issues before weak after) : Ages before after := by
  refine ⟨fun hgone => ?_, fun hfreed => by simp [h.allocated] at hfreed⟩
  cases weak with
  | false => exact absurd (.inl (h.strong rfl).1) hgone
  | true => rwa [h.weak rfl]

theorem Releases.ages (h : Releases before weak after) : Ages before after := by
  refine ⟨fun hgone => ?_, fun hfreed => by simp [h.allocated] at hfreed⟩
  cases weak with
  | false => exact absurd (.inl (h.strong rfl).1) hgone
  | true => rwa [(h.weak rfl).2]

theorem Finishes.ages (h : Finishes before after) : Ages before after :=
  ⟨fun hgone => absurd (.inr h.pending) hgone, fun _ hidle => by simp [h.pending] at hidle⟩

/-- A step changes one state at most, which ages. -/
theorem Step.ages (step : Step model model') {c base : ℕ}
    (hlook : look model.controls c = some (state, base)) :
    ∃ after, look model'.controls c = some (after, base) ∧ Ages state after := by
  have hset {controls : List Control} {k : ℕ} {control : Control} {after : ControlState}
      (hlook : look controls c = some (state, base))
      (hk : look controls k = some (control.state, control.base)) (hages : Ages control.state after) :
      ∃ after', look (controls.modify k fun control => { control with state := after }) c
        = some (after', base) ∧ Ages state after' := by
    rw [look_setState, hlook, Option.map_some]
    split
    · next hc =>
      rw [← hc, hk] at hlook
      cases hlook
      exact ⟨after, rfl, hages⟩
    · exact ⟨state, rfl, .refl _⟩
  cases step with
  | refused nodes allocations => exact ⟨state, hlook, .refl _⟩
  | constructed idle external =>
    refine ⟨state, ?_, .refl _⟩
    rw [look_append, if_neg (lt_of_look hlook).ne, hlook]
  | issued idle held external found issues => exact hset hlook (look_eq_some found) issues.ages
  | released held source found releases =>
    rw [← source.look] at hlook
    exact hset hlook ((source.look _).trans (look_eq_some found)) releases.ages
  | nodeDropped innermost found next => exact ⟨state, (look_bump ..).trans hlook, .refl _⟩
  | finished innermost found complete finishes =>
    exact hset hlook (look_eq_some found) finishes.ages

theorem Step.dropped (step : Step model model') {i : ℕ} {owner : Owner}
    (hi : model.owners[i]? = some owner) (hdropped : owner.location = .dropped) :
    model'.owners[i]? = some owner := by
  have happend {owners : List Owner} (h : owners[i]? = some owner) (new : List Owner) :
      (owners ++ new)[i]? = some owner := by
    rw [getElem?_append_left (List.getElem?_eq_some_iff.mp h).1, h]
  cases step with
  | constructed idle external =>
    refine happend ?_ _
    rw [getElem?_moveIntoPayload, hi, Option.map_some, if_neg]
    intro hmem
    obtain ⟨owner', howner', hexternal⟩ := external i hmem
    simp_all
  | issued => exact happend hi _
  | released held source found releases =>
    rw [getElem?_modify, hi]
    refine congrArg some (if_neg ?_)
    rintro rfl
    cases hi.symm.trans held
    rw [hdropped] at source
    cases source
  | _ => exact hi

/-- **Nothing comes back.** Whatever events follow, a dropped owner stays dropped, a control keeps
its address, a payload that is gone stays gone, and a freed control stays freed. -/
theorem replayAll_ages {events : List ControlEventKind}
    (h : model.replayAll abi layouts events = .ok model') :
    (∀ (i : ℕ) (owner : Owner), model.owners[i]? = some owner → owner.location = .dropped →
      model'.owners[i]? = some owner)
    ∧ ∀ c state base, look model.controls c = some (state, base) →
      ∃ after, look model'.controls c = some (after, base) ∧ Ages state after := by
  unfold Model.replayAll at h
  constructor
  · intro i owner hi hdropped
    exact foldlM_invariant (I := fun model => model.owners[i]? = some owner)
      (fun _ _ _ hround hi => (Step.of_replay hround).dropped hi hdropped) h hi
  · intro c state base hlook
    refine foldlM_invariant (I := fun model => ∃ after, look model.controls c = some (after, base)
      ∧ Ages state after) (fun _ _ _ hround hages => ?_) h ⟨state, hlook, .refl _⟩
    obtain ⟨middle, hmiddle, hages⟩ := hages
    obtain ⟨last, hlast, hages'⟩ := (Step.of_replay hround).ages hmiddle
    refine ⟨last, hlast, fun hgone => hages'.gone (hages.gone hgone), fun hfreed hidle => ?_⟩
    obtain rfl := hages.freed hfreed hidle
    exact hages'.freed hfreed hidle

/-- The inner control of `completeRelease` is freed before the outer release ends. -/
theorem replayAll_ages_completeRelease : ∃ model model',
    Model.empty.replayAll cellAbi cellLayouts
        ((completeRelease.events.take 5).map ControlEvent.kind) = .ok model
      ∧ model.replayAll cellAbi cellLayouts
        ((completeRelease.events.drop 5).map ControlEvent.kind) = .ok model'
      ∧ ∀ c state base, look model.controls c = some (state, base) →
        ∃ after, look model'.controls c = some (after, base) ∧ Ages state after :=
  ⟨_, _, rfl, rfl, (@replayAll_ages _ _ cellAbi cellLayouts
    ((completeRelease.events.drop 5).map ControlEvent.kind) rfl).2⟩

end Zryna.OwnershipRuntime.ControlModel
