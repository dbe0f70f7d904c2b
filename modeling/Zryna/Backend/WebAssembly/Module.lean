import Zryna.Backend.WebAssembly.ControlFlow

/-!
# The functions of an emitted module

The layout numbers the functions of a verified program in table order and gives each of them a
type, shared by all functions with the same number of parameters. `wasmFuncs` reads the module
back: function `i` has the parameters of its type and the decoded body `i`. `ModuleOk` says that a
call that is resolved through the layout reaches the code of the function it names.
-/

namespace Zryna.Backend.WebAssembly

open Zryna.Wasm Zryna.Ir Zryna.Ir.ControlFlow List

/-! ### Traversals -/

/-- A successful traversal, pointwise. -/
theorem getElem?_of_mapM_ok {α β : Type} {f : α → Except Diagnostic β} {xs : List α} {ys : List β}
    (h : xs.mapM f = .ok ys) {i : ℕ} {x : α} (hx : xs[i]? = some x) :
    ∃ y, ys[i]? = some y ∧ f x = .ok y := by
  induction xs generalizing ys i with
  | nil => simp at hx
  | cons x' xs ih =>
    rw [mapM_cons] at h
    cases hf : f x' with
    | error e => rw [hf] at h; cases h
    | ok y' =>
      cases hrest : xs.mapM f with
      | error e => rw [hf, hrest] at h; cases h
      | ok ys' =>
        rw [hf, hrest] at h
        cases h
        cases i with
        | zero =>
          rw [getElem?_cons_zero, Option.some.injEq] at hx
          exact ⟨y', rfl, hx ▸ hf⟩
        | succ i => exact ih hrest (by simpa using hx)

theorem length_of_mapM_ok {α β : Type} {f : α → Except Diagnostic β} {xs : List α} {ys : List β}
    (h : xs.mapM f = .ok ys) : ys.length = xs.length := by
  induction xs generalizing ys with
  | nil => cases h; rfl
  | cons x xs ih =>
    rw [mapM_cons] at h
    cases hf : f x with
    | error e => rw [hf] at h; cases h
    | ok y =>
      cases hrest : xs.mapM f with
      | error e => rw [hf, hrest] at h; cases h
      | ok ys' =>
        rw [hf, hrest] at h
        cases h
        simp [ih hrest]

/-- A partial traversal that is defined everywhere. -/
theorem mapM_isSome {α β : Type} {f : α → Option β} {xs : List α}
    (h : ∀ x ∈ xs, ∃ y, f x = some y) :
    ∃ ys, xs.mapM f = some ys ∧ ∀ (i : ℕ) (x : α), xs[i]? = some x → ys[i]? = f x := by
  induction xs with
  | nil => exact ⟨[], rfl, by simp⟩
  | cons x xs ih =>
    obtain ⟨y, hy⟩ := h x (by simp)
    obtain ⟨ys, hys, hget⟩ := ih fun x hx => h x (by simp [hx])
    refine ⟨y :: ys, by simp [mapM_cons, hy, hys], fun i x' hx' => ?_⟩
    cases i with
    | zero =>
      rw [getElem?_cons_zero, Option.some.injEq] at hx'
      rw [getElem?_cons_zero, ← hx', hy]
    | succ i => exact hget i x' (by simpa using hx')

/-! ### Tables -/

/-- The tables describe the functions walked so far. -/
structure TablesOk (tables : LayoutTables) (views : List VerifiedFunction) : Prop where
  types : ∀ count index, (count, index) ∈ tables.typeIndices →
    tables.typeParameterCounts[index.toNat]? = some count
  length : tables.functionTypeIndices.length = views.length
  function : ∀ (i : ℕ) (view : VerifiedFunction), views[i]? = some view →
    ∃ index, tables.functionTypeIndices[i]? = some index
      ∧ tables.typeParameterCounts[index.toNat]? = some view.function.parameters.length

variable {tables tables' : LayoutTables} {views : List VerifiedFunction}

theorem TablesOk.typeIndex (h : TablesOk tables views) {count : ℕ} {index : BitVec 32}
    (hindex : tables.typeIndex count = .ok (tables', index)) :
    TablesOk tables' views ∧ tables'.typeParameterCounts[index.toNat]? = some count := by
  unfold LayoutTables.typeIndex at hindex
  split at hindex
  · next c i hfind =>
    cases hindex
    have hc : c = count := by simpa using find?_some hfind
    exact ⟨h, h.types count index (hc ▸ mem_of_find?_eq_some hfind)⟩
  · cases hu : toU32 tables.typeParameterCounts.length with
    | error e => rw [hu] at hindex; cases hindex
    | ok i =>
      rw [hu] at hindex
      cases hindex
      obtain ⟨hlt, rfl⟩ := eq_of_toU32 hu
      have hnew : (tables.typeParameterCounts ++ [count])[
          (BitVec.ofNat 32 tables.typeParameterCounts.length).toNat]? = some count := by
        rw [BitVec.toNat_ofNat, Nat.mod_eq_of_lt hlt]
        simp
      have hold : ∀ {j c : ℕ}, tables.typeParameterCounts[j]? = some c →
          (tables.typeParameterCounts ++ [count])[j]? = some c := by
        intro j c hj
        rw [getElem?_append_left (List.getElem?_eq_some_iff.mp hj).1, hj]
      refine ⟨⟨fun c t hmem => ?_, h.length, fun i view hview => ?_⟩, hnew⟩
      · rcases mem_append.mp hmem with hmem | hmem
        · exact hold (h.types c t hmem)
        · obtain ⟨rfl, rfl⟩ : c = count ∧ t = _ := by simpa using hmem
          exact hnew
      · obtain ⟨t, ht, hcount⟩ := h.function i view hview
        exact ⟨t, ht, hold hcount⟩

theorem TablesOk.add (h : TablesOk tables views) {view : VerifiedFunction} {i : ℕ}
    (hadd : tables.add (view, i) = .ok tables') : TablesOk tables' (views ++ [view]) := by
  unfold LayoutTables.add at hadd
  cases hs : verifyControlFlowSignature view.function with
  | error e => simp [hs, bind, Except.bind] at hadd
  | ok u =>
  cases ht : tables.typeIndex view.function.parameters.length with
  | error e => simp [hs, ht, bind, Except.bind] at hadd
  | ok result =>
  obtain ⟨middle, index⟩ := result
  obtain ⟨hmiddle, hindex⟩ := h.typeIndex ht
  cases he : exportEntries view i with
  | error e => simp [hs, ht, he, bind, Except.bind] at hadd
  | ok exports =>
  cases hl : functionLocalLayout view.function with
  | error e => simp [hs, ht, he, hl, bind, Except.bind] at hadd
  | ok locals =>
  simp only [hs, ht, he, hl, bind, Except.bind] at hadd
  cases hadd
  refine ⟨hmiddle.types, by simp [hmiddle.length], fun j v hv => ?_⟩
  rcases Nat.lt_trichotomy j views.length with hj | rfl | hj
  · rw [getElem?_append_left hj] at hv
    obtain ⟨t, ht', hcount⟩ := hmiddle.function j v hv
    refine ⟨t, ?_, hcount⟩
    dsimp only
    rw [getElem?_append_left (by rw [hmiddle.length]; exact hj), ht']
  · obtain rfl : view = v := by simpa using hv
    refine ⟨index, ?_, hindex⟩
    dsimp only
    rw [← hmiddle.length]
    simp
  · rw [getElem?_eq_none (by simp; omega)] at hv
    cases hv

theorem tablesOk_foldlM (entries : List (VerifiedFunction × ℕ)) :
    ∀ {tables tables' : LayoutTables} {views : List VerifiedFunction}, TablesOk tables views →
      entries.foldlM LayoutTables.add tables = .ok tables' →
      TablesOk tables' (views ++ entries.map Prod.fst) := by
  induction entries with
  | nil =>
    intro tables tables' views h hfold
    cases hfold
    simpa using h
  | cons entry entries ih =>
    intro tables tables' views h hfold
    rw [foldlM_cons] at hfold
    cases hadd : tables.add entry with
    | error e => rw [hadd] at hfold; cases hfold
    | ok middle =>
      rw [hadd] at hfold
      have := ih (h.add hadd) hfold
      simpa using this

/-- What a layout says about its functions. -/
structure LayoutFacts (verified : VerifiedProgram) (layout : ControlFlowLayout) : Prop where
  functions : layout.functions = verified.functions
  index : ∀ (i : ℕ) (view : VerifiedFunction), layout.functions[i]? = some view →
    i < 2 ^ 32 ∧ layout.functionIndices[i]? = some (view.function.id, BitVec.ofNat 32 i)
  length : layout.functionIndices.length = layout.functions.length
  type_length : layout.functionTypeIndices.length = layout.functions.length
  type : ∀ (i : ℕ) (view : VerifiedFunction), layout.functions[i]? = some view →
    ∃ index, layout.functionTypeIndices[i]? = some index
      ∧ layout.typeParameterCounts[index.toNat]? = some view.function.parameters.length

variable {layout : ControlFlowLayout} {verified : VerifiedProgram}

theorem layoutFacts_of_new
    (h : ControlFlowLayout.new verified = .ok layout) : LayoutFacts verified layout := by
  unfold ControlFlowLayout.new at h
  dsimp only at h
  cases hi : verified.functions.zipIdx.mapM (fun x => do
      let index ← toU32 x.2
      pure (x.1.function.id, index) : VerifiedFunction × ℕ → Except Diagnostic _) with
  | error e => rw [hi] at h; cases h
  | ok indices =>
  cases ht : verified.functions.zipIdx.foldlM LayoutTables.add {} with
  | error e => rw [hi, ht] at h; cases h
  | ok tables =>
  rw [hi, ht] at h
  cases h
  have htables : TablesOk tables ([] ++ verified.functions.zipIdx.map Prod.fst) :=
    tablesOk_foldlM _ ⟨by simp, rfl, by simp⟩ ht
  have hfst : verified.functions.zipIdx.map Prod.fst = verified.functions := by
    simp
  rw [nil_append, hfst] at htables
  refine ⟨rfl, fun i view hview => ?_, ?_, htables.length, htables.function⟩
  · have hzip : verified.functions.zipIdx[i]? = some (view, i) := by
      rw [getElem?_zipIdx, hview]
      simp
    obtain ⟨entry, hentry, hok⟩ := getElem?_of_mapM_ok hi hzip
    dsimp only at hok
    cases hu : toU32 i with
    | error e => rw [hu] at hok; cases hok
    | ok index =>
      rw [hu] at hok
      cases hok
      obtain ⟨hlt, rfl⟩ := eq_of_toU32 hu
      exact ⟨hlt, hentry⟩
  · rw [length_of_mapM_ok hi, length_zipIdx]

/-! ### The module -/

/-- The bodies of the code section. -/
def encodeBodies (layout : ControlFlowLayout) (byteBudget : ℕ) :
    Except Diagnostic (List (List Byte)) :=
  layout.functions.mapM fun view => encodeControlFlowFunction view layout byteBudget

/-- The functions of the module: parameters from the type section, bodies decoded. -/
def wasmFuncs (layout : ControlFlowLayout) (bodies : List (List Byte)) : Option (List Func) :=
  (layout.functionTypeIndices.zip bodies).mapM fun (typeIndex, bytes) =>
    (layout.typeParameterCounts[typeIndex.toNat]?).bind fun parameters =>
      (decodeBody bytes).map fun (locals, body) => ⟨parameters, locals, body⟩

/-- Calls that are resolved through the layout reach the code of the function they name. -/
def ModuleOk (program : Program) (layout : ControlFlowLayout) (funcs : List Func) : Prop :=
  ∀ id function, program.function? id = some function →
    ∃ index view locals, layout.functionIndex id = some index ∧ view.function = function
      ∧ functionLocalLayout function = .ok locals
      ∧ funcs[index.toNat]? = some ⟨function.parameters.length, locals.declaredCount.toNat,
        functionCode view layout locals⟩

theorem functionIndex_spec
    (facts : VerifiedFacts verified.program) (hlayout : LayoutFacts verified layout)
    {id : FunctionId} {function : Function} (hf : verified.program.function? id = some function) :
    ∃ (i : ℕ) (view : VerifiedFunction), layout.functionIndex id = some (BitVec.ofNat 32 i)
      ∧ i < 2 ^ 32 ∧ layout.functions[i]? = some view ∧ view.function = function := by
  have hid := facts.function_id id function hf
  -- some entry has the identity of the function
  obtain ⟨view₀, hmem, hview₀⟩ := facts.mem_functions.mpr (hid.symm ▸ hf)
  rw [← hlayout.functions] at hmem
  obtain ⟨i₀, hi₀⟩ := mem_iff_getElem?.mp hmem
  have hentry₀ := (hlayout.index i₀ view₀ hi₀).2
  -- whichever entry is found, it names a function of the same identity
  unfold ControlFlowLayout.functionIndex
  cases hfind : layout.functionIndices.reverse.find? fun entry => entry.1 = id with
  | none =>
    have := find?_eq_none.mp hfind _ (mem_reverse.mpr (mem_of_getElem? hentry₀))
    simp [hview₀, hid] at this
  | some entry =>
    have hentry : entry ∈ layout.functionIndices :=
      mem_reverse.mp (mem_of_find?_eq_some hfind)
    obtain ⟨i, hi⟩ := mem_iff_getElem?.mp hentry
    have hlt : i < layout.functions.length := by
      rw [← hlayout.length]
      exact (List.getElem?_eq_some_iff.mp hi).1
    obtain ⟨hlt32, hi'⟩ := hlayout.index i layout.functions[i] (getElem?_eq_getElem hlt)
    rw [hi, Option.some.injEq] at hi'
    subst hi'
    have hfound : layout.functions[i].function.id = id := by simpa using find?_some hfind
    refine ⟨i, layout.functions[i], rfl, hlt32, getElem?_eq_getElem hlt, ?_⟩
    have hself : verified.program.function? layout.functions[i].function.id
        = some layout.functions[i].function :=
      facts.mem_functions.mp ⟨_, hlayout.functions ▸ getElem_mem hlt, rfl⟩
    rw [hfound, hf, Option.some.injEq] at hself
    exact hself.symm

/-- The emitted bodies form a module. -/
theorem moduleOk_of_encode {byteBudget : ℕ} {bodies : List (List Byte)}
    (facts : VerifiedFacts verified.program) (hlayout : ControlFlowLayout.new verified = .ok layout)
    (hbodies : encodeBodies layout byteBudget = .ok bodies) :
    ∃ funcs, wasmFuncs layout bodies = some funcs ∧ ModuleOk verified.program layout funcs := by
  have hfacts := layoutFacts_of_new hlayout
  have hlen := length_of_mapM_ok hbodies
  -- each pair of a type and a body belongs to one function
  have hpair : ∀ (i : ℕ) (view : VerifiedFunction), layout.functions[i]? = some view →
      ∃ typeIndex bytes locals, (layout.functionTypeIndices.zip bodies)[i]? = some (typeIndex, bytes)
        ∧ layout.typeParameterCounts[typeIndex.toNat]? = some view.function.parameters.length
        ∧ functionLocalLayout view.function = .ok locals
        ∧ decodeBody bytes
          = some (locals.declaredCount.toNat, functionCode view layout locals) := by
    intro i view hview
    obtain ⟨typeIndex, htype, hcount⟩ := hfacts.type i view hview
    obtain ⟨bytes, hbytes, hencode⟩ := getElem?_of_mapM_ok hbodies hview
    obtain ⟨locals, hlocals, hdecode⟩ := decodeBody_encodeControlFlowFunction hencode
    exact ⟨typeIndex, bytes, locals, getElem?_zip_eq_some.mpr ⟨htype, hbytes⟩, hcount,
      hlocals, hdecode⟩
  let read (x : BitVec 32 × List Byte) : Option Func :=
    (layout.typeParameterCounts[x.1.toNat]?).bind fun parameters =>
      (decodeBody x.2).map fun y => ⟨parameters, y.1, y.2⟩
  have hdefined : ∀ x ∈ layout.functionTypeIndices.zip bodies, ∃ func, read x = some func := by
    intro x hx
    obtain ⟨i, hi⟩ := mem_iff_getElem?.mp hx
    have hlt : i < layout.functions.length := by
      have := (List.getElem?_eq_some_iff.mp hi).1
      rw [length_zip, hlen] at this
      omega
    obtain ⟨typeIndex, bytes, locals, hzip, hcount, -, hdecode⟩ :=
      hpair i layout.functions[i] (getElem?_eq_getElem hlt)
    rw [hi, Option.some.injEq] at hzip
    subst hzip
    refine ⟨⟨layout.functions[i].function.parameters.length, locals.declaredCount.toNat,
      functionCode layout.functions[i] layout locals⟩, ?_⟩
    simp [read, hcount, hdecode]
  obtain ⟨funcs, hfuncs, hget⟩ := mapM_isSome hdefined
  refine ⟨funcs, hfuncs, fun id function hf => ?_⟩
  obtain ⟨i, view, hindex, hlt, hview, rfl⟩ := functionIndex_spec facts hfacts hf
  obtain ⟨typeIndex, bytes, locals, hzip, hcount, hlocals, hdecode⟩ := hpair i view hview
  refine ⟨_, view, locals, hindex, rfl, hlocals, ?_⟩
  rw [BitVec.toNat_ofNat, Nat.mod_eq_of_lt hlt, hget i _ hzip]
  simp [read, hcount, hdecode]

end Zryna.Backend.WebAssembly
