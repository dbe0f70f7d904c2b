import Zryna.Semantics.Instantiation.Processing

/-!
# Processing a function

A function gains what is written in it, the types of its expressions, and the functions that it
calls, each over the type arguments of the call.
-/

namespace Zryna.Semantics.Instantiation

open Zryna.Ir.Generic Relation List Option

variable {program : CheckedProgram} {bodies : BodyTypes} {builder builder' : Builder}

section Functions

variable {id : ℕ} {owner : DeclarationIdentity} {arguments : List ℕ} {ts : List ClosedType}
  {source : List UInt8} {expression : Expression}

theorem getElem?_modifyFunction (f : Function → Function) (i : ℕ) :
    (builder.modifyFunction id f).functions[i]?
      = (builder.functions[i]?).map fun function => if id = i then f function else function := by
  rw [Builder.modifyFunction, getElem?_modify]
  rfl

variable {f : Function → Function} {occurrences : List UInt32}

theorem exists_modifyFunction (halike : ∀ function : Function, function.Alike (f function)) {i : ℕ}
    {function : Function} (h : (builder.modifyFunction id f).functions[i]? = some function) :
    ∃ old, builder.functions[i]? = some old ∧ old.Alike function ∧ (¬ i = id → function = old) := by
  rw [getElem?_modifyFunction, map_eq_some_iff] at h
  obtain ⟨old, hold, rfl⟩ := h
  refine ⟨old, hold, ?_, fun hne => if_neg (Ne.symm hne)⟩
  split
  · exact halike old
  · exact .refl old

/-- A function may change in what does not identify it. -/
theorem modifyFunction_extends (hsound : Sound program builder)
    (halike : ∀ function : Function, function.Alike (f function)) :
    Extends program (· = .function id) (fun _ => False) (fun _ => False) builder
      (builder.modifyFunction id f) := by
  have hinv := hsound.inventory
  have hnew : ∀ (i : ℕ) (function : Function), builder.functions[i]? = some function →
      ∃ new, (builder.modifyFunction id f).functions[i]? = some new ∧ function.Alike new
        ∧ (¬ i = id → new = function) := by
    intro i function hfunction
    refine ⟨if id = i then f function else function, by rw [getElem?_modifyFunction, hfunction]; rfl,
      ?_, fun hne => if_neg (Ne.symm hne)⟩
    split
    · exact halike function
    · exact .refl function
  have hkeys : ∀ i, (builder.modifyFunction id f).functionKey i = builder.functionKey i := by
    intro i
    rw [Builder.functionKey, Builder.functionKey, getElem?_modifyFunction]
    cases builder.functions[i]? with
    | none => rfl
    | some function =>
      simp only [map_some, elim_some]
      split
      · exact (halike function).key
      · rfl
  exact
    { sound :=
        { inventory :=
            { types := hinv.types
              functions := fun function hfunction => by
                obtain ⟨i, hi⟩ := getElem?_of_mem hfunction
                obtain ⟨old, hold, hsame, -⟩ := exists_modifyFunction halike hi
                obtain ⟨term, hterm⟩ := hinv.functions old (mem_of_getElem? hold)
                exact ⟨term, hterm.alike hsame⟩
              typeOrder_sorted := hinv.typeOrder_sorted
              mem_typeOrder := hinv.mem_typeOrder
              functionOrder_sorted := hinv.functionOrder_sorted.congr fun i _ => (hkeys i).symm
              mem_functionOrder := fun i => by
                rw [Builder.modifyFunction, length_modify]
                exact hinv.mem_functionOrder i
              edges_sorted := hinv.edges_sorted }
          values := hsound.values
          bounds := hsound.bounds }
      types := fun i node hnode => ⟨node, hnode, .refl node, fun _ => rfl⟩
      functions := fun i function hfunction => by
        obtain ⟨new, hnew, hsame, hother⟩ := hnew i function hfunction
        exact ⟨new, hnew, hsame, fun hne => hother fun heq => hne (heq ▸ rfl)⟩
      freshType := fun i node hnode hi =>
        absurd (List.getElem?_eq_some_iff.mp hnode).1 (not_lt.mpr hi)
      freshFunction := fun i function hfunction hi => by
        obtain ⟨old, hold, -⟩ := exists_modifyFunction halike hfunction
        exact absurd (List.getElem?_eq_some_iff.mp hold).1 (not_lt.mpr hi)
      has := fun i => by
        rw [or_false]
        cases i with
        | type t => exact Iff.rfl
        | function owner ts =>
          constructor
          · rintro ⟨function, hmem, rfl, hdenotes⟩
            obtain ⟨i, hi⟩ := getElem?_of_mem hmem
            obtain ⟨old, hold, hsame, -⟩ := exists_modifyFunction halike hi
            exact ⟨old, mem_of_getElem? hold, hsame.owner.symm, hsame.arguments ▸ hdenotes⟩
          · rintro ⟨function, hmem, rfl, hdenotes⟩
            obtain ⟨i, hi⟩ := getElem?_of_mem hmem
            obtain ⟨new, hnew, hsame, -⟩ := hnew i function hi
            exact ⟨new, mem_of_getElem? hnew, hsame.owner, hsame.arguments.symm ▸ hdenotes⟩
      mem_edges := fun e => (or_false _).symm ▸ Iff.rfl }

theorem callArguments_spec {before results : List ℕ}
    (hsound : Sound program builder) (hargs : List.Forall₂ (Denotes builder.types) arguments ts)
    (h : occurrences.foldlM (fun (state : Builder × List ℕ) occurrence => do
      let (builder, argument) ←
        state.1.source program.toBodyTypes ⟨owner, arguments⟩ occurrence source none
      match argument with
      | none => .error .internalFailure
      | some id =>
        let span := (program.record? owner occurrence).map SourceRecord.span
        .ok (builder.argumentUse id span, state.2 ++ [id])) (builder, before)
          = .ok (builder', results)) :
    ∃ rest us, results = before ++ rest ∧ List.Forall₂ (Denotes builder'.types) rest us
      ∧ List.Forall₂ (fun occurrence t => program.closedSource owner ts occurrence = some t)
        occurrences us
      ∧ Extends program noJob
        (fun i => ∃ occurrence ∈ occurrences, OccurrenceGains program.toBodyTypes owner ts occurrence i)
        (fun e => ∃ occurrence ∈ occurrences,
          OccurrenceEdges program.toBodyTypes owner ts source occurrence e) builder builder' := by
  induction occurrences generalizing builder before with
  | nil =>
    cases h
    exact ⟨[], [], (append_nil _).symm, .nil, .nil,
      (Extends.refl hsound).congr (by simp) (by simp)⟩
  | cons occurrence occurrences ih =>
    rw [foldlM_cons] at h
    obtain ⟨state, hstate, hrest⟩ := Checked.bind_eq_ok.mp h
    obtain ⟨⟨next, argument⟩, hsource, hstate⟩ := Checked.bind_eq_ok.mp hstate
    obtain ⟨hrel, hextends⟩ := source_spec hsound hargs hsource
    cases argument with
    | none => cases hstate
    | some argument =>
      cases hstate
      obtain ⟨t, ht, hdenotes⟩ := exists_of_rel_left hrel
      have huse := (@sameInventory_argumentUse next argument
        ((program.record? owner occurrence).map SourceRecord.span)).extends hextends.sound
      have hfirst := hextends.trans no_focus huse
      obtain ⟨rest, us, rfl, hdenoted, hclosed, hothers⟩ :=
        ih hfirst.sound (hfirst.forall₂_denotes hargs) hrest
      exact ⟨argument :: rest, t :: us, by rw [append_assoc]; rfl,
        .cons (hothers.denotes (huse.denotes hdenotes)) hdenoted, .cons ht hclosed,
        (hfirst.trans no_focus hothers).congr (by simp) (by simp)⟩

/-- An expression calls a function, over what the type arguments close to. -/
def CallOf (bodies : BodyTypes) (owner : DeclarationIdentity) (ts : List ClosedType)
    (expression : Expression) (target : DeclarationIdentity) (us : List ClosedType) : Prop :=
  ∃ call, expression.call = some call ∧ expression.intrinsic = false
    ∧ bodies.target owner call.callee = some target
    ∧ List.Forall₂ (fun occurrence t => bodies.closedSource owner ts occurrence = some t)
      (call.typeArguments.getD []) us

theorem closedSource_unique {us vs : List ClosedType}
    (h : List.Forall₂ (fun occurrence t => bodies.closedSource owner ts occurrence = some t)
      occurrences us)
    (h' : List.Forall₂ (fun occurrence t => bodies.closedSource owner ts occurrence = some t)
      occurrences vs) : us = vs := by
  induction h generalizing vs with
  | nil => cases h'; rfl
  | cons hu _ ih =>
    cases h' with
    | cons hv hrest => rw [Option.some.inj (hu.symm.trans hv), ih hrest]

section

variable (bodies : BodyTypes) (owner : DeclarationIdentity) (ts : List ClosedType)

def ExpressionGains (expression : Expression) (i : Instance) : Prop :=
  (∃ view, expression.type = some view ∧ PartGains bodies owner ts view i)
    ∨ (∃ occurrence ∈ expression.typeArguments, OccurrenceGains bodies owner ts occurrence i)
    ∨ ∃ target us, i = .function target us ∧ CallOf bodies owner ts expression target us

def ExpressionEdges
    (source : List UInt8) (expression : Expression) (e : List UInt8 × List UInt8) : Prop :=
  (∃ view, expression.type = some view ∧ PartEdges bodies owner ts source view e)
    ∨ (∃ occurrence ∈ expression.typeArguments,
      OccurrenceEdges bodies owner ts source occurrence e)
    ∨ ∃ target us, CallOf bodies owner ts expression target us ∧ us ≠ []
      ∧ e = (source, (Instance.function target us).key)

end

variable {function : FunctionDeclaration}

section

variable (hsound : Sound program builder)
  (hargs : List.Forall₂ (Denotes builder.types) arguments ts)
  (hfunction : program.function? owner = some function)
  (hexpression : expression ∈ function.expressions)

include hsound hargs hfunction hexpression

/-- A call gains its type arguments and its target. -/
theorem call_spec {call : Call} (hcall : expression.call = some call)
    (hintrinsic : expression.intrinsic = false)
    (h : builder.call program.toBodyTypes ⟨owner, arguments⟩ source call = .ok builder') :
    Extends program noJob
      (fun i => (∃ occurrence ∈ expression.typeArguments,
          OccurrenceGains program.toBodyTypes owner ts occurrence i)
        ∨ ∃ target us, i = .function target us
          ∧ CallOf program.toBodyTypes owner ts expression target us)
      (fun e => (∃ occurrence ∈ expression.typeArguments,
          OccurrenceEdges program.toBodyTypes owner ts source occurrence e)
        ∨ ∃ target us, CallOf program.toBodyTypes owner ts expression target us ∧ us ≠ []
          ∧ e = (source, (Instance.function target us).key)) builder builder' := by
  have hoccurrences : expression.typeArguments = call.typeArguments.getD [] := by
    rw [Expression.typeArguments, hcall]
    simp [hintrinsic]
  unfold Builder.call at h
  dsimp only at h
  split at h
  · cases h
  · next target htarget =>
    obtain ⟨⟨next, ids⟩, harguments, h⟩ := Checked.bind_eq_ok.mp h
    obtain ⟨rest, us, hids, hdenotes, hclosed, hfirst⟩ :=
      callArguments_spec hsound hargs harguments
    obtain rfl : ids = rest := hids
    obtain ⟨hkind, hparameters⟩ := program.calls_checked owner function hfunction expression
      hexpression call hcall hintrinsic target htarget
    have hlength : ids.length = (call.typeArguments.getD []).length :=
      hdenotes.length_eq.trans hclosed.length_eq.symm
    obtain ⟨⟨last, found⟩, hinterned, h⟩ := Checked.bind_eq_ok.mp h
    obtain ⟨⟨callee, hcallee, hkey, hgeneric⟩, hsecond⟩ :=
      function_extends hfirst.sound hdenotes hkind (hlength ▸ hparameters) hinterned
    have hunique : ∀ target' us', CallOf program.toBodyTypes owner ts expression target' us' ↔
        target' = target ∧ us' = us := by
      intro target' us'
      constructor
      · rintro ⟨call', hcall', -, htarget', hclosed'⟩
        obtain rfl := Option.some.inj (hcall.symm.trans hcall')
        exact ⟨Option.some.inj (htarget'.symm.trans htarget), closedSource_unique hclosed' hclosed⟩
      · rintro ⟨rfl, rfl⟩
        exact ⟨call, hcall, hintrinsic, htarget, hclosed⟩
    have hthird : Extends program noJob (fun _ => False)
        (fun e => us ≠ [] ∧ e = (source, (Instance.function target us).key)) last builder' := by
      rw [hcallee, any_some, hgeneric] at h
      split at h
      · next hne =>
        have hne' : us ≠ [] := by simpa using hne
        rw [functionKey_of_getElem? hcallee, hkey] at h
        exact ((edge_spec hsecond.sound.inventory.edges_sorted h).extends hsecond.sound).congr
          (fun _ => Iff.rfl) fun e => by rw [and_iff_right hne']
      · next hempty =>
        have hnil : us = [] := by simpa using hempty
        cases h
        exact (Extends.refl hsecond.sound).congr (fun _ => Iff.rfl) fun e => by simp [hnil]
    rw [hoccurrences]
    refine ((hfirst.trans no_focus hsecond).trans no_focus hthird).congr (fun i => ?_) fun e => ?_
    · simp only [hunique, or_false]
      refine or_congr_right ⟨fun h => ⟨target, us, h, rfl, rfl⟩, ?_⟩
      rintro ⟨_, _, hi, rfl, rfl⟩
      exact hi
    · simp only [hunique, or_false]
      refine or_congr_right ⟨fun h => ⟨target, us, ⟨rfl, rfl⟩, h⟩, ?_⟩
      rintro ⟨_, _, ⟨rfl, rfl⟩, he⟩
      exact he

theorem processExpression_type
    (h : builder.processExpression program.toBodyTypes ⟨owner, arguments⟩ source expression
      = .ok builder') : ∃ next, Extends program noJob
      (fun i => ∃ view, expression.type = some view ∧ PartGains program.toBodyTypes owner ts view i)
      (fun e => ∃ view, expression.type = some view
        ∧ PartEdges program.toBodyTypes owner ts source view e) builder next
    ∧ (match expression.call with
      | some row =>
        if expression.intrinsic then .ok next
        else next.call program.toBodyTypes ⟨owner, arguments⟩ source row
      | none => .ok next) = Except.ok builder' := by
  unfold Builder.processExpression at h
  cases htype : expression.type with
  | none =>
    rw [htype] at h
    exact ⟨builder, (Extends.refl hsound).congr (by simp) (by simp), h⟩
  | some view =>
    rw [htype] at h
    simp only [Checked.bind_eq_ok, Prod.exists] at h
    obtain ⟨next, result, hclose, _, heq, h⟩ := h
    cases heq
    obtain ⟨-, hextends⟩ := close_spec
      (program.expression_checked hfunction hexpression htype) hsound hargs hclose
    exact ⟨_, hextends.congr (by simp) (by simp), h⟩

theorem processExpression_spec
    (h : builder.processExpression program.toBodyTypes ⟨owner, arguments⟩ source expression
      = .ok builder') :
    Extends program noJob (ExpressionGains program.toBodyTypes owner ts expression)
      (ExpressionEdges program.toBodyTypes owner ts source expression) builder builder' := by
  obtain ⟨next, hfirst, h⟩ := processExpression_type hsound hargs hfunction hexpression h
  have hplain : expression.typeArguments = [] → (∀ target us,
      ¬ CallOf program.toBodyTypes owner ts expression target us) → next = builder' →
      Extends program noJob (ExpressionGains program.toBodyTypes owner ts expression)
        (ExpressionEdges program.toBodyTypes owner ts source expression) builder builder' := by
    rintro hnil hnone rfl
    exact hfirst.congr (fun i => by simp [ExpressionGains, hnil, hnone])
      fun e => by simp [ExpressionEdges, hnil, hnone]
  split at h
  · next row hcall =>
    split at h
    · next hintrinsic =>
      refine hplain (by rw [Expression.typeArguments, hcall]; simp [hintrinsic]) ?_
        (Except.ok.inj h)
      rintro target us ⟨_, -, hnot, -⟩
      rw [hintrinsic] at hnot
      cases hnot
    · next hintrinsic =>
      have hsecond := call_spec hfirst.sound (hfirst.forall₂_denotes hargs) hfunction hexpression
        hcall (Bool.eq_false_of_not_eq_true hintrinsic) h
      exact hfirst.trans no_focus hsecond
  · next hcall =>
    refine hplain (by rw [Expression.typeArguments, hcall]) ?_ (Except.ok.inj h)
    rintro target us ⟨_, hsome, -⟩
    cases hcall.symm.trans hsome

end

/-- What a function gains is what is written in it and what its expressions gain. -/
theorem processed_function (hfunction : bodies.function? owner = some function) (i : Instance) :
    ((∃ occurrence ∈ Builder.FunctionDeclaration.written function,
        OccurrenceGains bodies owner ts occurrence i)
        ∨ ∃ expression ∈ function.expressions, ExpressionGains bodies owner ts expression i)
      ↔ Processed bodies (.function owner ts) i := by
  constructor
  · rintro (⟨occurrence, hmem, view, hview, u, rfl, hpart⟩ | ⟨expression, hmem,
      ⟨view, hview, u, rfl, hpart⟩ | ⟨occurrence, hocc, view, hview, u, rfl, hpart⟩
        | ⟨target, us, rfl, call, hcall, hintrinsic, htarget, hclosed⟩⟩)
    · exact .inl ⟨u, rfl, owner, ts, view, .written hfunction hmem hview, hpart⟩
    · exact .inl ⟨u, rfl, owner, ts, view, .expression hfunction hmem hview, hpart⟩
    · exact .inl ⟨u, rfl, owner, ts, view, .typeArgument hfunction hmem hocc hview, hpart⟩
    · exact .inr ⟨owner, ts, target, us, rfl, rfl, function, expression, call, hfunction, hmem,
        hcall, hintrinsic, htarget, hclosed⟩
  · rintro (⟨u, rfl, _, _, view, hwrites, hpart⟩ | ⟨_, _, target, us, heq, rfl, function',
      expression, call, hfunction', hmem, hcall, hintrinsic, htarget, hclosed⟩)
    · cases hwrites with
      | written hfunction' hmem hview =>
        obtain rfl := Option.some.inj (hfunction.symm.trans hfunction')
        exact .inl ⟨_, hmem, view, hview, u, rfl, hpart⟩
      | expression hfunction' hmem hview =>
        obtain rfl := Option.some.inj (hfunction.symm.trans hfunction')
        exact .inr ⟨_, hmem, .inl ⟨view, hview, u, rfl, hpart⟩⟩
      | typeArgument hfunction' hmem hocc hview =>
        obtain rfl := Option.some.inj (hfunction.symm.trans hfunction')
        exact .inr ⟨_, hmem, .inr (.inl ⟨_, hocc, view, hview, u, rfl, hpart⟩)⟩
    · obtain ⟨rfl, rfl⟩ := Instance.function.inj heq
      obtain rfl := Option.some.inj (hfunction.symm.trans hfunction')
      exact .inr ⟨expression, hmem, .inr (.inr ⟨target, us, rfl, call, hcall, hintrinsic, htarget,
        hclosed⟩)⟩

theorem edges_function
    (hfunction : bodies.function? owner = some function) (e : List UInt8 × List UInt8) :
    ((∃ occurrence ∈ Builder.FunctionDeclaration.written function,
        OccurrenceEdges bodies owner ts (Instance.function owner ts).key occurrence e)
        ∨ ∃ expression ∈ function.expressions,
          ExpressionEdges bodies owner ts (Instance.function owner ts).key expression e)
      ↔ InstanceEdges bodies (.function owner ts) e := by
  constructor
  · rintro (⟨occurrence, hmem, view, hview, u, hpart, -, g, hinner, hgeneric, rfl⟩
      | ⟨expression, hmem, ⟨view, hview, u, hpart, -, g, hinner, hgeneric, rfl⟩
        | ⟨occurrence, hocc, view, hview, u, hpart, -, g, hinner, hgeneric, rfl⟩
        | ⟨target, us, ⟨call, hcall, hintrinsic, htarget, hclosed⟩, hne, rfl⟩⟩)
    · exact ⟨_, .mention ⟨owner, ts, view, .written hfunction hmem hview, hpart⟩ hinner hgeneric, rfl⟩
    · exact ⟨_, .mention ⟨owner, ts, view, .expression hfunction hmem hview, hpart⟩ hinner hgeneric,
        rfl⟩
    · exact ⟨_, .mention ⟨owner, ts, view, .typeArgument hfunction hmem hocc hview, hpart⟩ hinner
        hgeneric, rfl⟩
    · exact ⟨_, .call ⟨function, expression, call, hfunction, hmem, hcall, hintrinsic, htarget,
        hclosed⟩ hne, rfl⟩
  · rintro ⟨j, hdepends, rfl⟩
    cases hdepends with
    | @mention _ u g hmention hinner hgeneric =>
      obtain ⟨_, _, view, hwrites, hpart⟩ := hmention
      have huse : UseEdges (Instance.function owner ts).key u
          ((Instance.function owner ts).key, (Instance.type g).key) :=
        ⟨key_ne_nil _, g, hinner, hgeneric, rfl⟩
      cases hwrites with
      | written hfunction' hmem hview =>
        obtain rfl := Option.some.inj (hfunction.symm.trans hfunction')
        exact .inl ⟨_, hmem, view, hview, u, hpart, huse⟩
      | expression hfunction' hmem hview =>
        obtain rfl := Option.some.inj (hfunction.symm.trans hfunction')
        exact .inr ⟨_, hmem, .inl ⟨view, hview, u, hpart, huse⟩⟩
      | typeArgument hfunction' hmem hocc hview =>
        obtain rfl := Option.some.inj (hfunction.symm.trans hfunction')
        exact .inr ⟨_, hmem, .inr (.inl ⟨_, hocc, view, hview, u, hpart, huse⟩)⟩
    | @call _ target _ us hcalls hne =>
      obtain ⟨function', expression, call, hfunction', hmem, hcall, hintrinsic, htarget, hclosed⟩ :=
        hcalls
      obtain rfl := Option.some.inj (hfunction.symm.trans hfunction')
      exact .inr ⟨expression, hmem, .inr (.inr ⟨target, us, ⟨call, hcall, hintrinsic, htarget,
        hclosed⟩, hne, rfl⟩)⟩

/-- Processing a function gains what it mentions and calls. -/
theorem processFunction_spec {function : Function} (hsound : Sound program builder)
    (hfunction : builder.functions[id]? = some function)
    (hargs : List.Forall₂ (Denotes builder.types) function.arguments ts)
    (hkey : function.key = (Instance.function function.owner ts).key)
    (h : builder.processFunction program.toBodyTypes id = .ok builder') :
    Extends program (· = .function id) (Processed program.toBodyTypes (.function function.owner ts))
        (InstanceEdges program.toBodyTypes (.function function.owner ts)) builder builder'
      ∧ ∃ function', builder'.functions[id]? = some function' ∧ function'.processed = true := by
  have hfocus : ∀ job, job = Builder.Job.function id → builder.Interned job := by
    rintro _ rfl
    exact (List.getElem?_eq_some_iff.mp hfunction).1
  have halike : ∀ function : Function, function.Alike { function with processed := true } :=
    fun function => ⟨rfl, rfl, rfl, rfl⟩
  have hmark := @modifyFunction_extends program builder id _ hsound halike
  have hmarked : (builder.modifyFunction id fun function =>
      { function with processed := true }).functions[id]?
        = some { function with processed := true } := by
    rw [getElem?_modifyFunction, hfunction, map_some, if_pos rfl]
  unfold Builder.processFunction at h
  rw [hfunction] at h
  dsimp only at h
  split at h
  · cases h
  · next declaration hdeclaration =>
    obtain ⟨next, hwritten, h⟩ := Checked.bind_eq_ok.mp h
    -- the environment stays denoted
    have hkept : ∀ (b b' : Builder) (g : Instance → Prop) (e : List UInt8 × List UInt8 → Prop),
        List.Forall₂ (Denotes b.types) function.arguments ts → Extends program noJob g e b b' →
          List.Forall₂ (Denotes b'.types) function.arguments ts := fun _ _ _ _ hb hextends =>
      hextends.forall₂_denotes hb
    have hfirst := Extends.foldlM (P := fun b => List.Forall₂ (Denotes b.types) function.arguments ts)
      no_focus hkept
      (fun occurrence _ b b' hb hdenotes _ hstep => by
        obtain ⟨⟨b'', result⟩, hsource, heq⟩ := Checked.bind_eq_ok.mp hstep
        cases heq
        exact (source_spec hb hdenotes hsource).2) hmark.sound hargs hwritten
    have hsecond := Extends.foldlM
      (P := fun b => List.Forall₂ (Denotes b.types) function.arguments ts) no_focus hkept
      (fun expression hmem b b' hb hdenotes _ hstep =>
        processExpression_spec hb hdenotes hdeclaration hmem hstep) hfirst.sound
      (hfirst.forall₂_denotes hargs) h
    have hboth : Extends program (· = .function id) _ _ _ _ :=
      (hfirst.trans no_focus hsecond).widen fun _ h => h.elim
    obtain ⟨function', hfunction', -, hsame⟩ :=
      (hfirst.trans no_focus hsecond).functions id _ hmarked
    obtain rfl := hsame fun h => h
    refine ⟨(hmark.trans hfocus hboth).congr (fun i => ?_) (fun e => ?_), _, hfunction', rfl⟩
    · rw [false_or, processed_function hdeclaration]
    · rw [false_or, hkey, edges_function hdeclaration]

end Functions

end Zryna.Semantics.Instantiation
