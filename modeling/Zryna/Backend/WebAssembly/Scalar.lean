import Zryna.Ir.Universal.Tree
import Zryna.Wasm.Binary

/-!
# WebAssembly emission of the default profile

`encodeFunction` walks the arena of a verified `I32V1` function in index order and emits one
instruction for each expression. It never looks at operand identifiers: an addition takes whatever
two values are on top of the stack.

That these are its operands is the content of `encodeFunction_correct`. The arena lists the tree of
the body in postorder (`spans_of_clean`), so the code of a subtree is a contiguous part of the
emitted code, and running it pushes the value of the subtree (`exec_spans`).
-/

namespace Zryna.Backend.WebAssembly.Scalar

open Zryna.Wasm List
open Zryna.Ir.Universal hiding I32

/-! ### Emission -/

section

variable (view : VerifiedFunction)

def profileInvariantError : Diagnostic :=
  Diagnostic.error "ZRYNA-W1001" none
    (s!"verified function '{view.abiExport.logicalName}' contains a type or operation outside "
      ++ "the WebAssembly I32V1 proof profile")
    "report this compiler invariant failure with the smallest reproducible Zryna source"

/-- The instruction of an expression, operands ignored. -/
def encodeExpression (body : List Byte) (expression : Expr) : Except Diagnostic (List Byte) :=
  match expression.kind with
  | .parameter index => .ok (body ++ encodeInstr (.localGet index))
  | .i32Literal value => .ok (body ++ encodeInstr (.const value))
  | .i32Add _ _ => .ok (body ++ encodeInstr (.binary .add))
  | .boolLiteral _ => .error (profileInvariantError view)

/-- The body of a function without declared locals, up to and including its `end`. -/
def encodeFunction : Except Diagnostic (List Byte) := do
  let body ← view.function.expressions.foldlM (encodeExpression view) [0x00]
  pure (body ++ [0x0b])

/-! ### The emitted code -/

def instructionsOf : ExprKind → List Instr
  | .parameter index => [.localGet index]
  | .i32Literal value => [.const value]
  | .i32Add _ _ => [.binary .add]
  | .boolLiteral _ => []

/-- The code of the expressions `lo..hi`, the last excluded. -/
def sliceCode (arena : List Expr) (lo hi : ℕ) : List Instr :=
  ((arena.take hi).drop lo).flatMap fun expression => instructionsOf expression.kind

theorem sliceCode_append {arena : List Expr} {lo hi : ℕ} (mid : ℕ) (hlo : lo ≤ mid) (hmid : mid ≤ hi)
    (hlen : mid ≤ arena.length) :
    sliceCode arena lo hi = sliceCode arena lo mid ++ sliceCode arena mid hi := by
  have hsplit : arena.take hi = arena.take mid ++ (arena.take hi).drop mid := by
    conv_lhs => rw [← take_append_drop mid (arena.take hi), take_take,
      Nat.min_eq_left hmid]
  have hdrop : (arena.take hi).drop lo = (arena.take mid).drop lo ++ (arena.take hi).drop mid := by
    conv_lhs => rw [hsplit]
    rw [drop_append_of_le_length (by simp; omega)]
  unfold sliceCode
  rw [hdrop, flatMap_append]

theorem sliceCode_singleton {arena : List Expr} {i : ℕ} {kind : ExprKind}
    (h : kindAt arena i = some kind) : sliceCode arena i (i + 1) = instructionsOf kind := by
  obtain ⟨expression, hget, rfl⟩ := Option.map_eq_some_iff.mp h
  obtain ⟨hlt, rfl⟩ := List.getElem?_eq_some_iff.mp hget
  unfold sliceCode
  rw [take_add_one, drop_append_of_le_length (by simp; omega),
    drop_of_length_le (by simp)]
  simp [hlt]

/-- An arena without boolean literals is emitted whole. -/
theorem foldlM_encodeExpression (expressions : List Expr)
    (body : List Byte) (h : ∀ e ∈ expressions, ∀ b, e.kind ≠ .boolLiteral b) :
    expressions.foldlM (encodeExpression view) body
      = .ok (body ++ encodeInstrs (expressions.flatMap fun e => instructionsOf e.kind)) := by
  induction expressions generalizing body with
  | nil => simp [pure, Except.pure]
  | cons expression expressions ih =>
    have hhead : encodeExpression view body expression
        = .ok (body ++ encodeInstrs (instructionsOf expression.kind)) := by
      have hliteral := h expression (by simp)
      unfold encodeExpression
      cases hkind : expression.kind with
      | boolLiteral b => exact absurd hkind (hliteral b)
      | _ => simp [instructionsOf]
    rw [foldlM_cons, hhead]
    change expressions.foldlM (encodeExpression view) _ = _
    rw [ih _ fun e he => h e (by simp [he]), flatMap_cons, encodeInstrs_append,
      append_assoc]

end

theorem decodeBody_no_locals (body : List Instr) :
    decodeBody (0x00 :: (encodeInstrs body ++ [0x0b])) = some (0, body) := by
  have hzero : ∀ bytes : List Byte, decodeUnsigned 32 (0x00 :: bytes) = some (0, bytes) :=
    fun _ => rfl
  have hbody := decodeInstrs_encode (encodeInstrs body ++ [0x0b]).length body .end [] (by simp)
  rw [byte_end] at hbody
  simp only [decodeBody, hzero, Option.bind_some, decodeLocals, hbody]

/-! ### Correctness -/

/-- Running the code of a subtree pushes its value. -/
theorem exec_spans {arena : List Expr} {arguments : List I32} {lo i : ℕ} {tree : Tree}
    (h : Spans arena lo i tree) (hparameter : ∀ j index, kindAt arena j = some (.parameter index) →
      index.toNat < arguments.length) :
    ∃ value, tree.eval arguments = some value
      ∧ ∀ (funcs : List Func) (call : ℕ → List I32 → Outcome Fault I32) (fuel : ℕ)
        (stack : List I32),
        exec funcs call fuel (sliceCode arena lo (i + 1)) ⟨arguments, stack⟩
          = .done (⟨arguments, value :: stack⟩, .next) := by
  induction h with
  | @parameter i index h =>
    have hlt := hparameter i index h
    refine ⟨arguments[index.toNat], by simp [Tree.eval, hlt], fun funcs call fuel stack => ?_⟩
    rw [sliceCode_singleton h, instructionsOf, exec_cons_next, exec_nil]
    simp [execInstr, hlt]
  | @literal i value h =>
    refine ⟨value, rfl, fun funcs call fuel stack => ?_⟩
    rw [sliceCode_singleton h, instructionsOf, exec_cons_next, exec_nil]
    simp [execInstr]
  | @add lo lhs rhs left right h hl hr ihl ihr =>
    obtain ⟨x, hx, hexecx⟩ := ihl
    obtain ⟨y, hy, hexecy⟩ := ihr
    have hlen : rhs + 1 < arena.length := by
      obtain ⟨expression, hget, -⟩ := Option.map_eq_some_iff.mp h
      exact (List.getElem?_eq_some_iff.mp hget).1
    have hle := hl.le
    have hle' := hr.le
    refine ⟨x + y, by simp [Tree.eval, hx, hy], fun funcs call fuel stack => ?_⟩
    -- left operand, right operand, then the addition itself
    rw [sliceCode_append (lhs + 1) (by omega) (by omega) (by omega),
      exec_append_next (hexecx funcs call fuel stack),
      sliceCode_append (rhs + 1) (by omega) (by omega) (by omega),
      exec_append_next (hexecy funcs call fuel (x :: stack)), sliceCode_singleton h, instructionsOf,
      exec_cons_next, exec_nil]
    simp [execInstr, BinaryOp.apply]

/-- **The default lowering is correct.** The body of a verified function is a tree, and the code
emitted by walking its arena in index order leaves exactly the value of that tree on the stack. -/
theorem encodeFunction_correct {program : Program} {sources : SourceMap}
    {verified : VerifiedProgram} (h : verify program sources = .ok verified)
    {view : VerifiedFunction} (hview : view ∈ verified.functions) {arguments : List I32}
    (harity : arguments.length = view.function.parameters.length) :
    ∃ tree value bytes code, Denotes view.function.expressions view.function.body tree
      ∧ tree.eval arguments = some value
      ∧ encodeFunction view = .ok bytes ∧ decodeBody bytes = some (0, code)
      ∧ ∀ (funcs : List Func) (call : ℕ → List I32 → Outcome Fault I32) (fuel : ℕ),
        exec funcs call fuel code ⟨arguments, []⟩ = .done (⟨arguments, [value]⟩, .next)
          ∧ execBody funcs call fuel ⟨view.function.parameters.length, 0, code⟩ arguments
            = .done value := by
  have hok := functionOk_of_verify h hview
  obtain ⟨tree, hspans⟩ := hok.tree
  have hparameter : ∀ j index, kindAt view.function.expressions j = some (.parameter index) →
      index.toNat < arguments.length := by
    intro j index hkind
    rw [harity]
    exact (hok.arena.entry j _ hkind).parameter index rfl
  have hliteral : ∀ e ∈ view.function.expressions, ∀ b, e.kind ≠ .boolLiteral b := by
    intro e he b
    obtain ⟨j, hj⟩ := mem_iff_getElem?.mp he
    exact (hok.arena.entry j e.kind (by simp [kindAt, hj])).literal b
  have hcode : sliceCode view.function.expressions 0 (view.function.body + 1)
      = view.function.expressions.flatMap fun e => instructionsOf e.kind := by
    rw [sliceCode, hok.body_last, take_length, drop_zero]
  obtain ⟨value, hvalue, hexec⟩ := exec_spans hspans hparameter
  rw [hcode] at hexec
  refine ⟨tree, value, _, view.function.expressions.flatMap fun e => instructionsOf e.kind,
    hspans.denotes, hvalue, ?_, decodeBody_no_locals _, ?_⟩
  · unfold encodeFunction
    rw [foldlM_encodeExpression view _ _ hliteral]
    rfl
  · intro funcs call fuel
    have hrun := hexec funcs call fuel []
    refine ⟨hrun, ?_⟩
    unfold execBody
    rw [replicate_zero, append_nil, hrun]
    rfl

/-! ### An example -/

/-- The source map of the example: one file with one character. -/
def exampleSources : SourceMap where
  id := 0
  files := [⟨⟨0, 0⟩, "src/main.zry", "x"⟩]
  files_le := by decide
  id_eq := by
    intro i f hf
    match i with
    | 0 =>
      cases hf
      rfl
    | i + 1 => simp at hf
  text_le := by
    intro f hf
    obtain rfl : f = ⟨⟨0, 0⟩, "src/main.zry", "x"⟩ := by simpa using hf
    decide

/-- `(p + 7) + (q + p)`, listed in postorder. -/
def exampleSum : Function :=
  let expression (kind : ExprKind) : Expr := ⟨.i32, ⟨⟨0, 0⟩, 0, 1⟩, kind⟩
  { name := "sum"
    parameters := [.i32, .i32]
    returnType := .i32
    expressions := [expression (.parameter 0), expression (.i32Literal 7), expression (.i32Add 0 1),
      expression (.parameter 1), expression (.parameter 0), expression (.i32Add 3 4),
      expression (.i32Add 2 5)]
    body := 6 }

def exampleExport : Abi.VerifiedExport := ⟨"sum", "zryna_v1_e_sum", [.i32, .i32], .i32⟩

theorem encodeFunction_correct_sum :
    verify ⟨[exampleSum]⟩ exampleSources = .ok ⟨⟨[exampleSum]⟩, [exampleExport]⟩
      ∧ ∃ tree value bytes code, Denotes exampleSum.expressions exampleSum.body tree
        ∧ tree.eval [5, 3] = some value
        ∧ encodeFunction ⟨exampleSum, exampleExport⟩ = .ok bytes
        ∧ decodeBody bytes = some (0, code)
        ∧ ∀ (funcs : List Func) (call : ℕ → List I32 → Outcome Fault I32) (fuel : ℕ),
          exec funcs call fuel code ⟨[5, 3], []⟩ = .done (⟨[5, 3], [value]⟩, .next)
            ∧ execBody funcs call fuel ⟨2, 0, code⟩ [5, 3] = .done value := by
  have hverify : verify ⟨[exampleSum]⟩ exampleSources
      = .ok ⟨⟨[exampleSum]⟩, [exampleExport]⟩ := by decide
  have hview : ⟨exampleSum, exampleExport⟩ ∈ VerifiedProgram.functions
      ⟨⟨[exampleSum]⟩, [exampleExport]⟩ := by decide
  exact ⟨hverify, encodeFunction_correct hverify hview rfl⟩

end Zryna.Backend.WebAssembly.Scalar
