import Zryna.Backend.JavaScript.Correctness
import Zryna.Backend.WebAssembly.Correctness
import Zryna.Backend.WebAssembly.Scalar
import Zryna.Semantics.ControlFlow.Finished

/-!
# The backends agree

The end of lowering leaves every call of a program as it was, and each backend runs in lock step
with the interpreter of the IR. So the two emitted programs run in lock step with each other, and
with the program as it was before the pruning and the renumbering.
-/

namespace Zryna.Backend

open Zryna.Ir Zryna.Ir.ControlFlow WebAssembly Zryna.Backend.JavaScript
open Zryna.Semantics.ControlFlow Relation

/-- The end of lowering prunes and renumbers one function of a program. -/
def Finishes (lowered finished : Program) : Prop :=
  ∃ id function pruned parameters blocks, lowered.function? id = some function
    ∧ SsaBody function ∧ pruneDeadBlockParameters function.blocks = some pruned
    ∧ canonicalizeValues function.parameters pruned = .ok (parameters, blocks)
    ∧ finished = lowered.replace id { function with parameters := parameters, blocks := blocks }

variable {lowered program : Program}

theorem Finishes.run_eq (h : Finishes lowered program) : run lowered = run program := by
  obtain ⟨id, function, blocks, _, _, hf, hssa, hprune, hvalues, rfl⟩ := h
  rw [pruneDeadBlockParameters_eq hssa] at hprune
  obtain rfl := Option.some.inj hprune
  replace hvalues := (canonicalizeValues_pruned hssa).symm.trans hvalues
  split at hvalues
  · obtain ⟨rfl, rfl⟩ := Prod.mk.inj (Except.ok.inj hvalues)
    have hthin : Thinnable function (keeps function.blocks) (position (pruned function).ids) :=
      ⟨hssa, closed_of_ssa hssa, (position_bijOn (nodup_ids_pruned hssa)).injOn⟩
    exact (funext (hthin.run_replace hf)).symm
  · cases hvalues

theorem run_eq_of_finishes (h : ReflTransGen Finishes lowered program) :
    run lowered = run program := by
  induction h with
  | refl => rfl
  | tail _ hlast ih => exact ih.trans hlast.run_eq

/-- The two emissions of the function `id` agree with its calls in `lowered`: at every fuel they
run out when the call does, or return the two encodings of its value. -/
def EmissionsAgree (lowered : Program) (verified : VerifiedProgram) (layout : ControlFlowLayout)
    (bodies : List (List Wasm.Byte)) (id : FunctionId) (arguments : List Value) : Prop :=
  ∃ funcs index, wasmFuncs layout bodies = some funcs ∧ layout.functionIndex id = some index
    ∧ ∀ n, Outcome.Agree (fun v w => w = WebAssembly.encodeValue v) (run lowered n id arguments)
        (Wasm.invoke funcs n index.toNat (arguments.map WebAssembly.encodeValue))
      ∧ Outcome.Agree (fun v j => j = JavaScript.encodeValue v) (run lowered n id arguments)
        (JavaScript.invoke (script verified) n (privateFunctionName id)
          (arguments.map JavaScript.encodeValue)).outcome

/-- **The backends agree** on every verified program that WebAssembly can encode, whichever of its
functions were pruned and renumbered before. -/
theorem emissions_agree (hfinish : ReflTransGen Finishes lowered program) {sources : SourceMap}
    {expectedEntry : FileId} {verified : VerifiedProgram}
    (hverify : verify program sources expectedEntry = .ok verified)
    {layout : ControlFlowLayout} (hlayout : ControlFlowLayout.new verified = .ok layout)
    {byteBudget : ℕ} {bodies : List (List Wasm.Byte)}
    (hbodies : encodeBodies layout byteBudget = .ok bodies) {id : FunctionId} {function : Function}
    (hf : program.function? id = some function) {arguments : List Value}
    (hty : arguments.map Value.ty = function.parameters.map ValueDefinition.ty) :
    EmissionsAgree lowered verified layout bodies id arguments := by
  have facts := verifiedFacts_of_verify hverify
  obtain ⟨-, -, rfl⟩ := clean_of_verify hverify
  obtain ⟨funcs, hfuncs, hmodule⟩ := moduleOk_of_encode facts hlayout hbodies
  obtain ⟨index, view, locals, hindex, -, -, -⟩ := hmodule id function hf
  refine ⟨funcs, index, hfuncs, hindex, fun n => ?_⟩
  rw [run_eq_of_finishes hfinish]
  have hok := run_faultless facts hf hty n
  obtain ⟨func, -, -, hwasm⟩ := WebAssembly.callsAgree_run facts hmodule n id arguments hok
  rw [hindex] at hwasm
  exact ⟨hwasm, ((JavaScript.callsAgree_run facts n).function id arguments hok).outcome⟩

/-- `carriedLoop` without the value that nothing uses. -/
def prunedLoop : Function :=
  { carriedLoop with blocks := [
      ⟨0, [], [], [⟨carriedLoop.span, .jump 1 []⟩]⟩,
      ⟨1, [], [], [⟨carriedLoop.span, .branch 0 1 [] 2 []⟩]⟩,
      ⟨2, [], [], [⟨carriedLoop.span, .return 0⟩]⟩] }

/-- The program of one function. -/
def programOf (function : Function) : Program := ⟨0, [⟨0, ⟨0, 0⟩, [function]⟩]⟩

theorem emissions_agree_carriedLoop : ∃ layout bodies, EmissionsAgree (programOf carriedLoop)
    ⟨programOf prunedLoop, []⟩ layout bodies ⟨0, 0⟩ [.bool true] := by
  have hfinish : Finishes (programOf carriedLoop) (programOf prunedLoop) :=
    ⟨⟨0, 0⟩, carriedLoop, prunedLoop.blocks, _, prunedLoop.blocks, rfl, carriedLoop_ssa,
      by decide +kernel, rfl, rfl⟩
  have hverify : verify (programOf prunedLoop) Scalar.exampleSources ⟨0, 0⟩
      = .ok ⟨programOf prunedLoop, []⟩ := rfl
  have hok : (ControlFlowLayout.new ⟨programOf prunedLoop, []⟩ >>= fun layout =>
      encodeBodies layout 1024).isOk = true := by decide +kernel
  obtain ⟨layout, bodies, hlayout, hbodies⟩ := exists_of_isOk hok
  have hf : (programOf prunedLoop).function? ⟨0, 0⟩ = some prunedLoop := rfl
  exact ⟨layout, bodies, emissions_agree (.single hfinish) hverify hlayout hbodies hf rfl⟩

end Zryna.Backend
