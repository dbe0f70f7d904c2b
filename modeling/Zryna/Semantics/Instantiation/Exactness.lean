import Zryna.Semantics.Instantiation.Keys
import Zryna.Semantics.Instantiation.Roots

/-!
# Discovery is exact

A run of the worklist processes one unprocessed instance after another, the least by key. Between
two rounds the builder holds reached instances only, whatever a processed instance mentions or calls
is interned, and the edges are those of the processed instances (`Inv`). When nothing is left to
process the instances are therefore exactly those that are reached, in whatever order they were
found.
-/

namespace Zryna.Semantics.Instantiation

open Zryna.Ir.Generic Relation List

variable {program : CheckedProgram} {bodies : BodyTypes} {builder builder' : Builder}

/-! ### Jobs and instances -/

def Builder.InstanceOf (builder : Builder) : Builder.Job → Instance → Prop
  | .type id, i => ∃ t, i = .type t ∧ Denotes builder.types id t
  | .function id, i => ∃ function ts, builder.functions[id]? = some function
      ∧ i = .function function.owner ts ∧ List.Forall₂ (Denotes builder.types) function.arguments ts

section Instances

variable {job : Builder.Job} {i j : Instance}

theorem Inventory.instance_unique (hinv : Inventory bodies builder) (hi : builder.InstanceOf job i)
    (hj : builder.InstanceOf job j) : i = j := by
  cases job with
  | type id =>
    obtain ⟨t, rfl, ht⟩ := hi
    obtain ⟨u, rfl, hu⟩ := hj
    rw [hinv.denotes_unique ht hu]
  | function id =>
    obtain ⟨function, ts, hfunction, rfl, hts⟩ := hi
    obtain ⟨function', us, hfunction', rfl, hus⟩ := hj
    obtain rfl := Option.some.inj (hfunction.symm.trans hfunction')
    rw [hinv.forall₂_unique hts hus]

theorem Inventory.exists_instance (hinv : Inventory bodies builder) (hjob : builder.Interned job) :
    ∃ i, builder.InstanceOf job i := by
  cases job with
  | type id =>
    obtain ⟨t, ht⟩ := hinv.types id _ (getElem?_eq_getElem hjob)
    exact ⟨_, t, rfl, _, getElem?_eq_getElem hjob, ht.key⟩
  | function id =>
    obtain ⟨term, hterm⟩ := hinv.functions _ (getElem_mem hjob)
    exact ⟨_, _, _, getElem?_eq_getElem hjob, rfl, hterm.arguments⟩

theorem interned_of_instance (h : builder.InstanceOf job i) : builder.Interned job := by
  cases job with
  | type id =>
    obtain ⟨t, -, ht⟩ := h
    exact ht.lt
  | function id =>
    obtain ⟨function, -, hfunction, -⟩ := h
    exact (List.getElem?_eq_some_iff.mp hfunction).1

theorem has_of_instance (h : builder.InstanceOf job i) : builder.Has i := by
  cases job with
  | type id =>
    obtain ⟨t, rfl, ht⟩ := h
    exact ⟨id, ht⟩
  | function id =>
    obtain ⟨function, ts, hfunction, rfl, hts⟩ := h
    exact ⟨function, mem_of_getElem? hfunction, rfl, hts⟩

theorem exists_job (h : builder.Has i) : ∃ job, builder.InstanceOf job i := by
  cases i with
  | type t =>
    obtain ⟨id, hid⟩ := h
    exact ⟨.type id, t, rfl, hid⟩
  | function owner ts =>
    obtain ⟨function, hmem, rfl, hts⟩ := h
    obtain ⟨id, hid⟩ := getElem?_of_mem hmem
    exact ⟨.function id, function, ts, hid, rfl, hts⟩

/-- The key of an instance is that of its node or function. -/
theorem Inventory.function_key (hinv : Inventory bodies builder) {function : Function}
    {ts : List ClosedType} (hmem : function ∈ builder.functions)
    (hts : List.Forall₂ (Denotes builder.types) function.arguments ts) :
    function.key = (Instance.function function.owner ts).key := by
  obtain ⟨term, hterm⟩ := hinv.functions function hmem
  obtain rfl := hinv.forall₂_unique hts hterm.arguments
  rw [hterm.key, key_of_functionConstructor]
  rw [← hterm.arguments.length_eq]
  exact hterm.constructor

theorem Extends.instanceOf {focus : Builder.Job → Prop} {gained : Instance → Prop}
    {edges : List UInt8 × List UInt8 → Prop}
    (h : Extends program focus gained edges builder builder') (hi : builder.InstanceOf job i) :
    builder'.InstanceOf job i := by
  cases job with
  | type id =>
    obtain ⟨t, rfl, ht⟩ := hi
    exact ⟨t, rfl, h.denotes ht⟩
  | function id =>
    obtain ⟨function, ts, hfunction, rfl, hts⟩ := hi
    obtain ⟨function', hfunction', halike, -⟩ := h.functions id function hfunction
    exact ⟨function', ts, hfunction', by rw [halike.owner],
      halike.arguments ▸ h.forall₂_denotes hts⟩

theorem Inventory.job_unique (hinv : Inventory bodies builder) {job' : Builder.Job}
    (h : builder.InstanceOf job i) (h' : builder.InstanceOf job' i) : job = job' := by
  cases job with
  | type id =>
    obtain ⟨t, rfl, ht⟩ := h
    cases job' with
    | type id' =>
      obtain ⟨u, heq, hu⟩ := h'
      obtain rfl := Instance.type.inj heq
      rw [hinv.typeOrder_sorted.eq_of_key_eq ((hinv.mem_typeOrder id).mpr ht.lt)
        ((hinv.mem_typeOrder id').mpr hu.lt) ((typeKey_of_denotes ht).trans
          (typeKey_of_denotes hu).symm)]
    | function id' =>
      obtain ⟨_, _, _, heq, -⟩ := h'
      cases heq
  | function id =>
    obtain ⟨function, ts, hfunction, rfl, hts⟩ := h
    cases job' with
    | type id' =>
      obtain ⟨_, heq, -⟩ := h'
      cases heq
    | function id' =>
      obtain ⟨function', us, hfunction', heq, hus⟩ := h'
      obtain ⟨howner, rfl⟩ := Instance.function.inj heq
      have hkey := hinv.function_key (mem_of_getElem? hfunction) hts
      have hkey' := hinv.function_key (mem_of_getElem? hfunction') hus
      rw [hinv.functionOrder_sorted.eq_of_key_eq
        ((hinv.mem_functionOrder id).mpr (List.getElem?_eq_some_iff.mp hfunction).1)
        ((hinv.mem_functionOrder id').mpr (List.getElem?_eq_some_iff.mp hfunction').1)
        (by rw [functionKey_of_getElem? hfunction, functionKey_of_getElem? hfunction', hkey, hkey',
          howner])]

end Instances

/-! ### A round -/

/-- A job has been processed. -/
def Builder.IsProcessed (builder : Builder) : Builder.Job → Prop
  | .type id => ∃ node, builder.types[id]? = some node ∧ node.processed = true
  | .function id => ∃ function, builder.functions[id]? = some function ∧ function.processed = true

section Round

variable {job : Builder.Job} {i : Instance}

/-- A round takes a job that has not been processed. -/
theorem next_some (h : builder.next = some job) :
    builder.Interned job ∧ ¬ builder.IsProcessed job := by
  have htype : ∀ id, builder.typeOrder.find? (fun id =>
      (builder.types[id]?).any fun node => !node.processed) = some id →
        builder.Interned (.type id) ∧ ¬ builder.IsProcessed (.type id) := by
    intro id hid
    have hfound := find?_some hid
    cases hnode : builder.types[id]? with
    | none =>
      rw [hnode] at hfound
      cases hfound
    | some node =>
      rw [hnode] at hfound
      refine ⟨(List.getElem?_eq_some_iff.mp hnode).1, ?_⟩
      rintro ⟨other, hother, hprocessed⟩
      obtain rfl := Option.some.inj (hnode.symm.trans hother)
      simp [hprocessed] at hfound
  have hfunction : ∀ id, builder.functionOrder.find? (fun id =>
      (builder.functions[id]?).any fun function => !function.processed) = some id →
        builder.Interned (.function id) ∧ ¬ builder.IsProcessed (.function id) := by
    intro id hid
    have hfound := find?_some hid
    cases hfunction : builder.functions[id]? with
    | none =>
      rw [hfunction] at hfound
      cases hfound
    | some function =>
      rw [hfunction] at hfound
      refine ⟨(List.getElem?_eq_some_iff.mp hfunction).1, ?_⟩
      rintro ⟨other, hother, hprocessed⟩
      obtain rfl := Option.some.inj (hfunction.symm.trans hother)
      simp [hprocessed] at hfound
  unfold Builder.next at h
  dsimp only at h
  split at h
  · next hid hid' =>
    split at h
    · exact Option.some.inj h ▸ hfunction _ hid'
    · exact Option.some.inj h ▸ htype _ hid
  · next hid _ => exact Option.some.inj h ▸ htype _ hid
  · next _ hid => exact Option.some.inj h ▸ hfunction _ hid
  · cases h

/-- The worklist ends when everything has been processed. -/
theorem next_none (hinv : Inventory bodies builder) (h : builder.next = none)
    (hjob : builder.Interned job) : builder.IsProcessed job := by
  obtain ⟨htype, hfunction⟩ : builder.typeOrder.find? (fun id =>
        (builder.types[id]?).any fun node => !node.processed) = none
      ∧ builder.functionOrder.find? (fun id =>
        (builder.functions[id]?).any fun function => !function.processed) = none := by
    unfold Builder.next at h
    dsimp only at h
    split at h
    · split at h <;> exact nomatch h
    · cases h
    · cases h
    · next htype hfunction => exact ⟨htype, hfunction⟩
  cases job with
  | type id =>
    have hid := find?_eq_none.mp htype id ((hinv.mem_typeOrder id).mpr hjob)
    rw [getElem?_eq_getElem hjob] at hid
    exact ⟨_, getElem?_eq_getElem hjob, by simpa using hid⟩
  | function id =>
    have hid := find?_eq_none.mp hfunction id ((hinv.mem_functionOrder id).mpr hjob)
    rw [getElem?_eq_getElem hjob] at hid
    exact ⟨_, getElem?_eq_getElem hjob, by simpa using hid⟩

/-- What a round adds. -/
theorem process_spec (hsound : Sound program builder) (hi : builder.InstanceOf job i)
    (hmembers : ∀ (id : ℕ) (node : Node), job = .type id → builder.types[id]? = some node →
      node.members = [])
    (h : builder.process program.toBodyTypes job = .ok builder') :
    Extends program (· = job) (Processed program.toBodyTypes i)
        (InstanceEdges program.toBodyTypes i) builder builder'
      ∧ builder'.IsProcessed job
      ∧ ∀ (id : ℕ) (node : Node) t, job = .type id → builder'.types[id]? = some node →
        node.key = t.key → MembersExact program.toBodyTypes builder'.types t node := by
  cases job with
  | type id =>
    obtain ⟨t, rfl, node, hnode, hkey⟩ := hi
    obtain ⟨hextends, node', hnode', hprocessed, hexact⟩ :=
      processType_spec hsound hnode hkey (hmembers id node rfl hnode) h
    refine ⟨hextends, ⟨node', hnode', hprocessed⟩, fun id' other u heq hother hkey' => ?_⟩
    obtain rfl := Builder.Job.type.inj heq
    obtain rfl := Option.some.inj (hnode'.symm.trans hother)
    rwa [hextends.sound.inventory.denotes_unique ⟨node', hnode', hkey'⟩
      (hextends.denotes ⟨node, hnode, hkey⟩)]
  | function id =>
    obtain ⟨function, ts, hfunction, rfl, hts⟩ := hi
    obtain ⟨hextends, hprocessed⟩ := processFunction_spec hsound hfunction hts
      (hsound.inventory.function_key (mem_of_getElem? hfunction) hts) h
    exact ⟨hextends, hprocessed, fun _ _ _ heq => nomatch heq⟩

end Round

/-- Between two rounds, where `done` have been processed. -/
structure Inv (program : CheckedProgram) (done : Builder.Job → Prop) (builder : Builder) :
    Prop where
  sound : Sound program builder
  reached : ∀ i, builder.Has i → Reached program.toBodyTypes Scalar i
  rooted : ∀ i, Root program.toBodyTypes i ∨ Scalar i → builder.Has i
  processed : ∀ job, builder.IsProcessed job
    ↔ done job ∨ ∃ i, builder.InstanceOf job i ∧ Scalar i
  members : ∀ (id : ℕ) (node : Node), builder.types[id]? = some node → node.processed = false →
    node.members = []
  exact : ∀ (id : ℕ) (node : Node) t, builder.types[id]? = some node → node.key = t.key →
    node.processed = true → MembersExact program.toBodyTypes builder.types t node
  settled : ∀ job, done job → ∃ i, builder.InstanceOf job i ∧ ¬ Scalar i
    ∧ ∀ j, Processed program.toBodyTypes i j → builder.Has j
  edges : ∀ e, e ∈ builder.edges ↔ ∃ job i, done job ∧ builder.InstanceOf job i
    ∧ InstanceEdges program.toBodyTypes i e

theorem MembersExact.mono {types types' : List Node} {t : ClosedType} {node : Node}
    (h : MembersExact bodies types t node)
    (hmono : ∀ id t, Denotes types id t → Denotes types' id t) :
    MembersExact bodies types' t node where
  nominal owner data howner hdata :=
    have hat := h.nominal owner data howner hdata
    { mem := fun m hm => by
        obtain ⟨occurrence, hmem, u, hu, hdenotes⟩ := hat.mem m hm
        exact ⟨occurrence, hmem, u, hu, hmono m u hdenotes⟩
      listed := fun occurrence hmem u hu => by
        obtain ⟨m, hm, hdenotes⟩ := hat.listed occurrence hmem u hu
        exact ⟨m, hm, hmono m u hdenotes⟩
      value := hat.value }
  other := h.other

/-! ### The scalar types -/

theorem scalar_iff {t : ClosedType} :
    Scalar (.type t) ↔ ∃ node ∈ (Builder.scalars ⟨[], []⟩).types, node.key = t.key := by
  have hkey : ∀ c : TypeConstructor, t.constructor = c → c.count = 0 → c.lanes = [] →
      t.key = [c.tag] := by
    rintro _ rfl hcount hlanes
    have harguments : t.arguments = [] := by
      rw [← length_eq_zero_iff, t.length_arguments, hcount]
      rfl
    rw [t.key_eq, hlanes, harguments]
    rfl
  simp only [Builder.scalars, mem_cons, not_mem_nil, or_false, exists_eq_or_imp,
    exists_eq_left]
  constructor
  · rintro ⟨h | h | h⟩
    · exact .inl (hkey .bool h rfl rfl).symm
    · exact .inr (.inl (hkey .i32 h rfl rfl).symm)
    · exact .inr (.inr (hkey .string h rfl rfl).symm)
  · intro h
    have htag : t.constructor.tag = 0 ∨ t.constructor.tag = 1 ∨ t.constructor.tag = 2 := by
      rw [t.key_eq, encodeKey] at h
      exact h.imp (fun h => (List.cons.inj h).1.symm)
        (Or.imp (fun h => (List.cons.inj h).1.symm) fun h => (List.cons.inj h).1.symm)
    refine ⟨?_⟩
    generalize t.constructor = c at htag
    cases c <;> first | (simp [TypeConstructor.tag] at htag; done) | simp

/-- The builder with the scalar types has these. -/
theorem has_scalars {bounds : Bounds} (i : Instance) : (Builder.scalars bounds).Has i ↔ Scalar i := by
  cases i with
  | type t =>
    rw [scalar_iff]
    constructor
    · rintro ⟨id, node, hnode, hkey⟩
      exact ⟨node, mem_of_getElem? hnode, hkey⟩
    · rintro ⟨node, hnode, hkey⟩
      obtain ⟨id, hid⟩ := getElem?_of_mem hnode
      exact ⟨id, node, hid, hkey⟩
  | function owner ts =>
    refine iff_of_false ?_ nofun
    rintro ⟨function, hmem, -⟩
    cases hmem

theorem ownerOf_scalar {t : ClosedType} (h : Scalar (.type t)) : ownerOf t = none := by
  obtain ⟨h | h | h⟩ := h <;> rw [ownerOf, h]

namespace Inv

variable {done : Builder.Job → Prop} {job : Builder.Job}

/-- An instance that is processed was reached before, so what it gains is reached. -/
theorem reached_processed {i j : Instance} (hi : Reached program.toBodyTypes Scalar i)
    (h : Processed program.toBodyTypes i j) : Reached program.toBodyTypes Scalar j := by
  obtain ⟨u, rfl, hmention⟩ | ⟨owner, ts, target, us, rfl, rfl, hcall⟩ := h
  · exact .mention hi hmention
  · exact .call hi hcall

/-- A round keeps the invariant. -/
theorem round (hinv : Inv program done builder) (hnext : builder.next = some job)
    (h : builder.process program.toBodyTypes job = .ok builder') :
    ¬ done job ∧ Inv program (fun job' => done job' ∨ job' = job) builder' := by
  obtain ⟨hinterned, hnot⟩ := next_some hnext
  have hold := hinv.sound.inventory
  obtain ⟨i, hi⟩ := hold.exists_instance hinterned
  have hscalar : ¬ Scalar i := fun hs => hnot ((hinv.processed job).mpr (.inr ⟨i, hi, hs⟩))
  obtain ⟨hextends, hprocessed, hexact⟩ := process_spec hinv.sound hi (by
    rintro id node rfl hnode
    refine hinv.members id node hnode (Bool.eq_false_of_not_eq_true fun htrue => ?_)
    exact hnot ⟨node, hnode, htrue⟩) h
  have hnew := hextends.sound.inventory
  refine ⟨fun hdone => hnot ((hinv.processed job).mpr (.inl hdone)), ?_⟩
  -- the instance of a job that was interned before
  have hinstance : ∀ {job' j}, builder.Interned job' → builder'.InstanceOf job' j →
      builder.InstanceOf job' j := by
    intro job' j hjob' hj
    obtain ⟨k, hk⟩ := hold.exists_instance hjob'
    rwa [hnew.instance_unique hj (hextends.instanceOf hk)]
  -- a job that is new is neither processed, nor one of a scalar
  have hfresh : ∀ {job'}, ¬ builder.Interned job' → ¬ builder'.IsProcessed job'
      ∧ ∀ j, builder'.InstanceOf job' j → ¬ Scalar j := by
    intro job' hjob'
    constructor
    · intro hprocessed
      cases job' with
      | type id =>
        obtain ⟨node, hnode, htrue⟩ := hprocessed
        rw [(hextends.freshType id node hnode (not_lt.mp hjob')).1] at htrue
        cases htrue
      | function id =>
        obtain ⟨function, hfunction, htrue⟩ := hprocessed
        rw [hextends.freshFunction id function hfunction (not_lt.mp hjob')] at htrue
        cases htrue
    · intro j hj hs
      obtain ⟨job'', hjob''⟩ := exists_job (hinv.rooted j (.inr hs))
      rw [hnew.job_unique hj (hextends.instanceOf hjob'')] at hjob'
      exact hjob' (interned_of_instance hjob'')
  -- other jobs that were interned are as they were
  have hother : ∀ {job'}, builder.Interned job' → job' ≠ job →
      (builder'.IsProcessed job' ↔ builder.IsProcessed job') := by
    intro job' hjob' hne
    cases job' with
    | type id =>
      obtain ⟨node, hnode, -, hsame⟩ := hextends.types id _ (getElem?_eq_getElem hjob')
      obtain rfl := hsame hne
      exact exists_congr fun node => by rw [hnode, getElem?_eq_getElem hjob']
    | function id =>
      obtain ⟨function, hfunction, -, hsame⟩ :=
        hextends.functions id _ (getElem?_eq_getElem hjob')
      obtain rfl := hsame hne
      exact exists_congr fun function => by rw [hfunction, getElem?_eq_getElem hjob']
  have hnode : ∀ (id : ℕ) (node : Node), builder'.types[id]? = some node →
      (builder.types[id]? = some node ∧ Builder.Job.type id ≠ job) ∨ Builder.Job.type id = job
        ∨ node.processed = false ∧ node.members = [] := by
    intro id node hnode
    by_cases hlt : id < builder.types.length
    · by_cases heq : Builder.Job.type id = job
      · exact .inr (.inl heq)
      · obtain ⟨node', hnode', -, hsame⟩ := hextends.types id _ (getElem?_eq_getElem hlt)
        obtain rfl := Option.some.inj (hnode'.symm.trans hnode)
        exact .inl ⟨by rw [hsame heq, getElem?_eq_getElem hlt], heq⟩
    · exact .inr (.inr (hextends.freshType id node hnode (not_lt.mp hlt)))
  have hmono : ∀ id t, Denotes builder.types id t → Denotes builder'.types id t :=
    fun _ _ => hextends.denotes
  exact
    { sound := hextends.sound
      reached := fun j hj => ((hextends.has j).mp hj).elim (hinv.reached j)
        (reached_processed (hinv.reached i (has_of_instance hi)))
      rooted := fun j hj => (hextends.has j).mpr (.inl (hinv.rooted j hj))
      processed := fun job' => by
        by_cases hjob' : builder.Interned job'
        · by_cases heq : job' = job
          · subst heq
            exact iff_of_true hprocessed (.inl (.inr rfl))
          · rw [hother hjob' heq, hinv.processed, or_iff_left heq]
            refine or_congr_right (exists_congr fun j => and_congr_left fun _ => ?_)
            exact ⟨hextends.instanceOf, hinstance hjob'⟩
        · refine iff_of_false (hfresh hjob').1 ?_
          rintro ((hdone | rfl) | ⟨j, hj, hs⟩)
          · obtain ⟨j, hj, -⟩ := hinv.settled job' hdone
            exact hjob' (interned_of_instance hj)
          · exact hjob' hinterned
          · exact (hfresh hjob').2 j hj hs
      members := fun id node hget hfalse => by
        obtain ⟨hold, -⟩ | rfl | ⟨-, hmembers⟩ := hnode id node hget
        · exact hinv.members id node hold hfalse
        · obtain ⟨node', hnode', htrue⟩ := hprocessed
          obtain rfl := Option.some.inj (hnode'.symm.trans hget)
          rw [hfalse] at htrue
          cases htrue
        · exact hmembers
      exact := fun id node t hget hkey htrue => by
        obtain ⟨hold, -⟩ | heq | ⟨hfalse, -⟩ := hnode id node hget
        · exact (hinv.exact id node t hold hkey htrue).mono hmono
        · exact hexact id node t heq.symm hget hkey
        · rw [hfalse] at htrue
          cases htrue
      settled := by
        rintro job' (hdone | rfl)
        · obtain ⟨j, hj, hns, hgained⟩ := hinv.settled job' hdone
          exact ⟨j, hextends.instanceOf hj, hns, fun k hk =>
            (hextends.has k).mpr (.inl (hgained k hk))⟩
        · exact ⟨i, hextends.instanceOf hi, hscalar, fun k hk => (hextends.has k).mpr (.inr hk)⟩
      edges := fun e => by
        rw [hextends.mem_edges, hinv.edges]
        constructor
        · rintro (⟨job', j, hdone, hj, he⟩ | he)
          · exact ⟨job', j, .inl hdone, hextends.instanceOf hj, he⟩
          · exact ⟨job, i, .inr rfl, hextends.instanceOf hi, he⟩
        · rintro ⟨job', j, hdone | rfl, hj, he⟩
          · obtain ⟨k, hk, -⟩ := hinv.settled job' hdone
            exact .inl ⟨job', j, hdone, hinstance (interned_of_instance hk) hj, he⟩
          · rw [hnew.instance_unique hj (hextends.instanceOf hi)] at he
            exact .inr he }

/-- The first round starts with the roots. -/
theorem start {new found : Builder} (hnew : Builder.new program.toBodyTypes = .ok new)
    (hroots : new.roots program.toBodyTypes = .ok found) : Inv program (fun _ => False) found := by
  have hsound := sound_new hnew
  have hextends := roots_spec hsound hroots
  obtain ⟨bounds, -, rfl⟩ := new_eq_ok.mp hnew
  have hinv := hextends.sound.inventory
  have hscalars : ∀ (id : ℕ) (node : Node), (Builder.scalars bounds).types[id]? = some node →
      node.processed = true ∧ node.members = [] ∧ ∃ t, Scalar (.type t) ∧ node.key = t.key := by
    intro id node hnode
    have hall : ∀ node ∈ (Builder.scalars bounds).types,
        node.processed = true ∧ node.members = [] := by simp [Builder.scalars]
    obtain ⟨hprocessed, hmembers⟩ := hall node (mem_of_getElem? hnode)
    obtain ⟨t, ht⟩ := hsound.inventory.types id node hnode
    exact ⟨hprocessed, hmembers, t, (has_scalars (.type t)).mp ⟨id, node, hnode, ht.key⟩, ht.key⟩
  -- a node is a scalar, or it is new
  have hnodes : ∀ (id : ℕ) (node : Node), found.types[id]? = some node →
      (node.processed = true ∧ ∃ t, Scalar (.type t) ∧ node.key = t.key)
          ∧ node.members = [] ∧ id < (Builder.scalars bounds).types.length
        ∨ node.processed = false ∧ node.members = []
          ∧ (Builder.scalars bounds).types.length ≤ id := by
    intro id node hnode
    by_cases hlt : id < (Builder.scalars bounds).types.length
    · obtain ⟨node', hnode', -, hsame⟩ := hextends.types id _ (getElem?_eq_getElem hlt)
      obtain rfl := Option.some.inj (hnode'.symm.trans hnode)
      obtain ⟨hprocessed, hmembers, hscalar⟩ := hscalars id _ (getElem?_eq_getElem hlt)
      rw [hsame fun h => h]
      exact .inl ⟨⟨hprocessed, hscalar⟩, hmembers, hlt⟩
    · obtain ⟨hprocessed, hmembers⟩ := hextends.freshType id node hnode (not_lt.mp hlt)
      exact .inr ⟨hprocessed, hmembers, not_lt.mp hlt⟩
  exact
    { sound := hextends.sound
      reached := fun i hi => ((hextends.has i).mp hi).elim
        (fun hi => .start ((has_scalars i).mp hi)) .root
      rooted := fun i hi => (hextends.has i).mpr (hi.symm.imp_left (has_scalars i).mpr)
      processed := fun job => by
        rw [false_or]
        cases job with
        | type id =>
          constructor
          · rintro ⟨node, hnode, htrue⟩
            obtain ⟨⟨-, t, hscalar, hkey⟩, -⟩ | ⟨hfalse, -⟩ := hnodes id node hnode
            · exact ⟨.type t, ⟨t, rfl, node, hnode, hkey⟩, hscalar⟩
            · rw [hfalse] at htrue
              cases htrue
          · rintro ⟨_, ⟨t, rfl, ht⟩, hscalar⟩
            obtain ⟨id', hid'⟩ := (has_scalars (.type t)).mpr hscalar
            obtain rfl : id = id' := Builder.Job.type.inj
              (hinv.job_unique ⟨t, rfl, ht⟩ ⟨t, rfl, hextends.denotes hid'⟩)
            have hlt := hid'.lt
            obtain ⟨node, hnode, -⟩ := ht
            obtain ⟨⟨htrue, -⟩, -⟩ | ⟨-, -, hle⟩ := hnodes id node hnode
            · exact ⟨node, hnode, htrue⟩
            · exact absurd hlt (not_lt.mpr hle)
        | function id =>
          refine iff_of_false ?_ ?_
          · rintro ⟨function, hfunction, htrue⟩
            rw [hextends.freshFunction id function hfunction (Nat.zero_le _)] at htrue
            cases htrue
          · rintro ⟨_, ⟨_, _, _, rfl, -⟩, hscalar⟩
            cases hscalar
      members := fun id node hnode _ => (hnodes id node hnode).elim (·.2.1) (·.2.1)
      exact := fun id node t hnode hkey htrue => by
        obtain ⟨⟨-, u, hscalar, hkey'⟩, hmembers, -⟩ | ⟨hfalse, -⟩ := hnodes id node hnode
        · obtain rfl := hinv.denotes_unique ⟨node, hnode, hkey⟩ ⟨node, hnode, hkey'⟩
          refine ⟨fun owner _ howner => ?_, fun _ => hmembers⟩
          cases (ownerOf_scalar hscalar).symm.trans howner
        · rw [hfalse] at htrue
          cases htrue
      settled := fun job hno => hno.elim
      edges := fun e => by
        rw [hextends.mem_edges]
        simp [Builder.scalars] }

end Inv

/-! ### Runs -/

/-- The rounds of the worklist, with their jobs. -/
inductive Ran (bodies : BodyTypes) : Builder → List Builder.Job → Builder → Prop
  | nil (builder : Builder) : Ran bodies builder [] builder
  | cons {builder next last : Builder} {job : Builder.Job} {jobs : List Builder.Job}
      (hnext : builder.next = some job) (hprocess : builder.process bodies job = .ok next)
      (h : Ran bodies next jobs last) : Ran bodies builder (job :: jobs) last

theorem ran_of_pending {rounds : ℕ} (h : Builder.pending bodies rounds builder = .done builder') :
    ∃ jobs, Ran bodies builder jobs builder' ∧ builder'.next = none := by
  induction rounds generalizing builder with
  | zero => cases h
  | succ rounds ih =>
    rw [Builder.pending] at h
    split at h
    · next hnone =>
      obtain rfl := Outcome.done.inj h
      exact ⟨[], .nil _, hnone⟩
    · next job hjob =>
      split at h
      · cases h
      · next next hprocess =>
        obtain ⟨jobs, hran, hnone⟩ := ih h
        exact ⟨job :: jobs, .cons hjob hprocess hran, hnone⟩

/-- A run keeps the invariant, and takes each of its jobs once. -/
theorem Ran.inv {jobs : List Builder.Job} {done : Builder.Job → Prop}
    (h : Ran program.toBodyTypes builder jobs builder') (hinv : Inv program done builder) :
    jobs.Nodup ∧ (∀ job ∈ jobs, ¬ done job)
      ∧ Inv program (fun job => done job ∨ job ∈ jobs) builder' := by
  induction h generalizing done with
  | nil builder =>
    exact ⟨.nil, forall_mem_nil _, by simpa using hinv⟩
  | @cons builder next last job jobs hnext hprocess _ ih =>
    obtain ⟨hfresh, hround⟩ := hinv.round hnext hprocess
    obtain ⟨hnodup, hothers, hlast⟩ := ih hround
    refine ⟨nodup_cons.mpr ⟨fun hmem => hothers job hmem (.inr rfl), hnodup⟩,
      forall_mem_cons.mpr ⟨hfresh, fun job hjob hdone => hothers job hjob (.inl hdone)⟩, ?_⟩
    simpa only [mem_cons, or_assoc] using hlast

/-! ### The result -/

section Result

variable {done : Builder.Job → Prop}

/-- When nothing is left, everything but the scalars has been processed. -/
theorem Inv.done_iff (hinv : Inv program done builder) (hnone : builder.next = none)
    {job : Builder.Job} : done job ↔ ∃ i, builder.InstanceOf job i ∧ ¬ Scalar i := by
  constructor
  · intro hdone
    obtain ⟨i, hi, hscalar, -⟩ := hinv.settled job hdone
    exact ⟨i, hi, hscalar⟩
  · rintro ⟨i, hi, hscalar⟩
    have hprocessed := next_none hinv.sound.inventory hnone (interned_of_instance hi)
    refine ((hinv.processed job).mp hprocessed).resolve_right ?_
    rintro ⟨j, hj, hscalar'⟩
    rw [hinv.sound.inventory.instance_unique hi hj] at hscalar
    exact hscalar hscalar'

/-- A scalar type gains nothing and has no edges. -/
theorem not_processed_scalar {i j : Instance} (h : Scalar i) : ¬ Processed bodies i j := by
  cases i with
  | type t => exact processed_other (ownerOf_scalar h) j
  | function _ _ => cases h

theorem not_edges_scalar {i : Instance} {e : List UInt8 × List UInt8} (h : Scalar i) :
    ¬ InstanceEdges bodies i e := by
  cases i with
  | type t =>
    refine edges_other (ownerOf_scalar h) ?_ e
    obtain ⟨h⟩ := h
    rintro (ho | ho) <;>
    · rw [ho] at h
      simp at h
  | function _ _ => cases h

section

variable (hinv : Inv program done builder)

include hinv

variable (hnone : builder.next = none)

include hnone

/-- What a finished worklist has processed gains nothing more. -/
theorem Inv.gained {i j : Instance} (hi : builder.Has i) (h : Processed program.toBodyTypes i j) :
    builder.Has j := by
  obtain ⟨job, hjob⟩ := exists_job hi
  obtain ⟨k, hk, -, hgained⟩ := hinv.settled job ((hinv.done_iff hnone).mpr ⟨i, hjob, fun hs =>
    not_processed_scalar hs h⟩)
  rw [hinv.sound.inventory.instance_unique hjob hk] at h
  exact hgained j h

/-- A finished worklist has found exactly what is reached. -/
theorem Inv.has_iff (i : Instance) : builder.Has i ↔ Reached program.toBodyTypes Scalar i := by
  refine ⟨hinv.reached i, fun h => ?_⟩
  induction h with
  | start h => exact hinv.rooted _ (.inr h)
  | root h => exact hinv.rooted _ (.inl h)
  | argument _ hargument ih =>
    obtain ⟨id, hid⟩ := ih
    obtain ⟨node, -, hok⟩ := hinv.sound.inventory.denoted hid
    obtain ⟨id', -, hid'⟩ := exists_denotes hok.arguments hargument
    exact ⟨id', hid'.of_take⟩
  | mention _ hmention ih => exact hinv.gained hnone ih (.inl ⟨_, rfl, hmention⟩)
  | call _ hcall ih =>
    exact hinv.gained hnone ih (.inr ⟨_, _, _, _, rfl, rfl, hcall⟩)

/-- The edges of a finished worklist are those of the reached instances. -/
theorem Inv.mem_edges_iff (e : List UInt8 × List UInt8) :
    e ∈ builder.edges ↔ ∃ i j, Reached program.toBodyTypes Scalar i
      ∧ DependsOn program.toBodyTypes i j ∧ e = (i.key, j.key) := by
  rw [hinv.edges]
  constructor
  · rintro ⟨job, i, -, hi, j, hdepends, rfl⟩
    exact ⟨i, j, hinv.reached i (has_of_instance hi), hdepends, rfl⟩
  · rintro ⟨i, j, hi, hdepends, rfl⟩
    have hedges : InstanceEdges program.toBodyTypes i (i.key, j.key) := ⟨j, hdepends, rfl⟩
    obtain ⟨job, hjob⟩ := exists_job ((hinv.has_iff hnone i).mpr hi)
    exact ⟨job, i, (hinv.done_iff hnone).mpr ⟨i, hjob, fun hs => not_edges_scalar hs hedges⟩, hjob,
      hedges⟩

/-- Every type lists its members in the end. -/
theorem Inv.allExact : AllExact program.toBodyTypes builder := by
  intro id node t hnode hkey
  obtain ⟨other, hother, hprocessed⟩ := @next_none _ _ (.type id) hinv.sound.inventory hnone
    (List.getElem?_eq_some_iff.mp hnode).1
  obtain rfl := Option.some.inj (hother.symm.trans hnode)
  exact hinv.exact id other t hnode hkey hprocessed

end

/-- Keys increase along an order, so they are distinct. -/
theorem nodup_of_sorted {key : ℕ → List UInt8} {order : List ℕ}
    (h : SortedSlice.Sorted key order) : (order.map key).Nodup :=
  pairwise_map.mpr (h.imp fun hlt => hlt.ne)

/-- The orders list every index once. -/
theorem Inventory.orders (hinv : Inventory bodies builder) :
    builder.typeOrder.Perm (List.range builder.types.length)
      ∧ builder.functionOrder.Perm (List.range builder.functions.length) := by
  constructor
  · refine (perm_ext_iff_of_nodup (nodup_of_sorted hinv.typeOrder_sorted).of_map
      nodup_range).mpr fun id => ?_
    rw [hinv.mem_typeOrder, mem_range]
  · refine (perm_ext_iff_of_nodup (nodup_of_sorted hinv.functionOrder_sorted).of_map
      nodup_range).mpr fun id => ?_
    rw [hinv.mem_functionOrder, mem_range]

/-- Distinct indices have distinct keys. -/
theorem Inventory.nodup_keys (hinv : Inventory bodies builder) :
    (builder.types.map Node.key).Nodup ∧ (builder.functions.map Function.key).Nodup := by
  have htypes : builder.types.map Node.key
      = (List.range builder.types.length).map builder.typeKey := by
    refine ext_getElem (by simp) fun i hi _ => ?_
    rw [length_map] at hi
    simp [Builder.typeKey, hi]
  have hfunctions : builder.functions.map Function.key
      = (List.range builder.functions.length).map builder.functionKey := by
    refine ext_getElem (by simp) fun i hi _ => ?_
    rw [length_map] at hi
    simp [Builder.functionKey, hi]
  obtain ⟨htypeOrder, hfunctionOrder⟩ := hinv.orders
  rw [htypes, hfunctions, ← (htypeOrder.map _).nodup_iff, ← (hfunctionOrder.map _).nodup_iff]
  exact ⟨nodup_of_sorted hinv.typeOrder_sorted, nodup_of_sorted hinv.functionOrder_sorted⟩

end Result

/-- Discovery finds exactly the reached instances. When the roots and the worklist complete, the
instances are the least set that contains the scalar types, the roots, and what its members mention
and call; each is interned once, in an order by key, and each but the scalars is processed once; the
edges are those of the instances; and once values are propagated, a type is a value exactly when no
non-storable member is reachable from it. -/
theorem discovery_exact {new found final : Builder} {rounds : ℕ}
    (hnew : Builder.new program.toBodyTypes = .ok new)
    (hroots : new.roots program.toBodyTypes = .ok found)
    (hpending : Builder.pending program.toBodyTypes rounds found = .done final) :
    (∀ i, final.Has i ↔ Reached program.toBodyTypes Scalar i)
    ∧ (final.types.map Node.key).Nodup ∧ (final.functions.map Function.key).Nodup
    ∧ SortedSlice.Sorted final.typeKey final.typeOrder
    ∧ final.typeOrder.Perm (List.range final.types.length)
    ∧ SortedSlice.Sorted final.functionKey final.functionOrder
    ∧ final.functionOrder.Perm (List.range final.functions.length)
    ∧ (∃ jobs, Ran program.toBodyTypes found jobs final ∧ jobs.Nodup
      ∧ ∀ job, job ∈ jobs ↔ ∃ i, final.InstanceOf job i ∧ ¬ Scalar i)
    ∧ (∀ e, e ∈ final.edges ↔ ∃ i j, Reached program.toBodyTypes Scalar i
      ∧ DependsOn program.toBodyTypes i j ∧ e = (i.key, j.key))
    ∧ ∀ id t, Denotes final.types id t →
      (final.valueArguments.isValue id = true ↔ ¬ Unstorable program.toBodyTypes t) := by
  obtain ⟨jobs, hran, hnone⟩ := ran_of_pending hpending
  obtain ⟨hnodup, -, hinv⟩ := hran.inv (Inv.start hnew hroots)
  have hinventory := hinv.sound.inventory
  obtain ⟨htypeOrder, hfunctionOrder⟩ := hinventory.orders
  obtain ⟨htypeKeys, hfunctionKeys⟩ := hinventory.nodup_keys
  refine ⟨hinv.has_iff hnone, htypeKeys, hfunctionKeys, hinventory.typeOrder_sorted, htypeOrder,
    hinventory.functionOrder_sorted, hfunctionOrder, ⟨jobs, hran, hnodup, fun job => ?_⟩,
    hinv.mem_edges_iff hnone, fun id t ht => ?_⟩
  · rw [← hinv.done_iff hnone, false_or]
  · exact isValue_valueArguments hinv.sound (hinv.allExact hnone) ht

/-! ### Runs on small projects -/

/-- The scalar types are found in every project, also where nothing reaches them. -/
theorem discovery_seeds_scalars :
    ¬ ∀ (program : CheckedProgram) (new found final : Builder) (rounds : ℕ),
      Builder.new program.toBodyTypes = .ok new → new.roots program.toBodyTypes = .ok found →
      Builder.pending program.toBodyTypes rounds found = .done final →
        ∀ i, final.Has i ↔ Reached program.toBodyTypes (fun _ => False) i := by
  intro h
  have hhas := h .empty _ _ _ 1 new_empty rfl rfl (.type (.node .bool Fin.elim0))
  have hreached := hhas.mp ((has_scalars _).mpr ⟨.inl rfl⟩)
  -- nothing is declared, so there is no root
  have hdeclared : ∀ owner, ¬ CheckedProgram.empty.Declared owner := by
    rintro ⟨module, kind, index⟩ hdeclared
    cases kind <;> exact nomatch hdeclared
  have hnothing : ∀ i, ¬ Reached CheckedProgram.empty.toBodyTypes (fun _ => False) i := by
    intro i hi
    induction hi with
    | start h => exact h
    | root h =>
      cases h with
      | data _ _ h => exact hdeclared _ (by rw [BodyTypes.Declared, h]; rfl)
      | function _ h => exact hdeclared _ (by rw [BodyTypes.Declared, h]; rfl)
      | occurrence h => exact hdeclared _ h
    | argument _ _ ih | mention _ _ ih | call _ _ ih => exact ih
  exact hnothing _ hreached

/-- A project with one structure, which has no fields. -/
def CheckedProgram.singleton : CheckedProgram where
  modules := [⟨[⟨"S", 0, .struct []⟩], [], [], []⟩]
  modules_lt := by decide
  data_lt := by decide
  functions_lt := by decide
  sources_lt := by decide
  typeParameters_le := BodyTypes.le_of_typeParameters? (by decide) (by decide)
  sources_checked := by simp
  expressions_checked := by simp
  owners_declared := by
    intro index module hmodule record hrecord
    obtain rfl := mem_singleton.mp (mem_of_getElem? hmodule)
    cases hrecord
  data_sources := by simp
  calls_checked := by
    intro owner function hfunction
    simp only [BodyTypes.function?, BodyTypes.module?, Option.bind_eq_bind,
      Option.bind_eq_some_iff] at hfunction
    obtain ⟨module, hmodule, hfunction⟩ := hfunction
    obtain rfl := mem_singleton.mp (mem_of_getElem? hmodule)
    split at hfunction
    · cases hfunction
    · cases hfunction

theorem new_singleton : Builder.new CheckedProgram.singleton.toBodyTypes
    = .ok (.scalars ⟨[⟨0, .struct, 0⟩], [true]⟩) := by
  have hbounds : Bounds.new CheckedProgram.singleton.toBodyTypes
      = .ok ⟨[⟨0, .struct, 0⟩], [true]⟩ := by
    simp [Bounds.new, spread, BodyTypes.dataIdentities, CheckedProgram.singleton,
      BodyTypes.sourceOwners, dataIdentity, DataKind.declarationKind]
  exact new_eq_ok.mpr ⟨_, hbounds, rfl⟩

/-- In that project the structure is a value, and the fourth type. -/
theorem discovery_exact_singleton : ∃ final : Builder,
    (∀ i, final.Has i ↔ Reached CheckedProgram.singleton.toBodyTypes Scalar i)
      ∧ final.types.length = 4 ∧ final.valueArguments.isValue 3 = true
      ∧ ¬ Unstorable CheckedProgram.singleton.toBodyTypes
        (.node (.struct (0, 0)) Fin.elim0) := by
  obtain ⟨found, final, hroots, hpending, hlength, hdenotes⟩ : ∃ found final,
      (Builder.scalars ⟨[⟨0, .struct, 0⟩], [true]⟩).roots CheckedProgram.singleton.toBodyTypes
        = .ok found
      ∧ Builder.pending CheckedProgram.singleton.toBodyTypes 2 found = .done final
      ∧ final.types.length = 4
      ∧ Denotes final.types 3 (.node (.struct (0, 0)) Fin.elim0) := by
    refine ⟨_, _, rfl, rfl, rfl, ⟨_, rfl, rfl⟩⟩
  obtain ⟨hhas, -, -, -, -, -, -, -, -, hvalue⟩ := discovery_exact new_singleton hroots hpending
  have hstorable : ¬ Unstorable CheckedProgram.singleton.toBodyTypes
      (.node (.struct (0, 0)) Fin.elim0) := by
    have hmember : ∀ owner occurrence, ¬ MemberAt CheckedProgram.singleton.toBodyTypes
        (.node (.struct (0, 0)) Fin.elim0) owner occurrence := by
      rintro owner occurrence ⟨howner, data, hdata, hmem⟩
      obtain rfl := Option.some.inj howner
      obtain rfl := Option.some.inj hdata
      exact nomatch hmem
    rintro ⟨u, hpath, owner, occurrence, hat, -⟩
    obtain rfl | ⟨v, hholds, -⟩ := hpath.cases_head
    · exact hmember owner occurrence hat
    · cases hholds with
      | argument h => exact nomatch h
      | member h => exact hmember _ _ h
  exact ⟨final, hhas, hlength, (hvalue 3 _ hdenotes).mpr hstorable, hstorable⟩

end Zryna.Semantics.Instantiation
