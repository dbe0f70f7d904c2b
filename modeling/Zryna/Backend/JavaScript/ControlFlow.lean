import Zryna.Ir.ControlFlow.Numbering
import Zryna.JavaScript.Core

/-!
# JavaScript emission of verified `ControlFlowV1`

Every function becomes one JavaScript function. Its control-flow graph is flattened into a `switch`
in an endless loop: `$zryna$block` holds the number of the block to run, and a terminator either
returns or stores the next number and continues the loop. Value `i` of the function is the variable
`vi`. The arguments of an edge go through the temporaries `$zryna$a0`, `$zryna$a1`, … before any
parameter of the target is assigned.

`emitControlFlowFunction` is the emitter of the source, as a text. `functionDeclaration` is the
declaration it writes, and `emitControlFlowFunction_eq_render` says that the text is the rendering
of that declaration. Writing to a string does not fail, so the emitters are total.
-/

namespace Zryna.Backend.JavaScript

open Zryna.JavaScript Zryna.Ir
open Zryna.Ir.ControlFlow hiding Value

/-! ### Names -/

def privateFunctionName (id : FunctionId) : String :=
  "$zryna$m" ++ toString id.module ++ "f" ++ toString id.declaration

def valueName (value : ℕ) : String := "v" ++ toString value

def parameterName (index : ℕ) : String := "p" ++ toString index

def temporaryName (index : ℕ) : String := "$zryna$a" ++ toString index

def blockName : String := "$zryna$block"

theorem toDigits_injective {i j : ℕ} (h : Nat.toDigits 10 i = Nat.toDigits 10 j) : i = j := by
  rw [← @Nat.ofDigitChars_ten_toDigits i, h, Nat.ofDigitChars_ten_toDigits]

theorem append_toString_injective {lead : String} {i j : ℕ}
    (h : lead ++ toString i = lead ++ toString j) : i = j := by
  have hchars := congrArg String.toList h
  simp at hchars
  exact toDigits_injective hchars

/-- Texts that begin differently. -/
theorem append_ne {x y : String} {c d : Char} {xs ys : List Char} (hx : x.toList = c :: xs)
    (hy : y.toList = d :: ys) (hne : c ≠ d) (s t : String) : x ++ s ≠ y ++ t := by
  intro h
  have hchars := congrArg String.toList h
  rw [String.toList_append, String.toList_append, hx, hy] at hchars
  exact hne (List.cons.inj hchars).1

theorem valueName_injective {i j : ℕ} (h : valueName i = valueName j) : i = j :=
  append_toString_injective h

theorem parameterName_injective {i j : ℕ} (h : parameterName i = parameterName j) : i = j :=
  append_toString_injective h

theorem temporaryName_injective {i j : ℕ} (h : temporaryName i = temporaryName j) : i = j :=
  append_toString_injective h

/-- The letter between the two numbers of a function name is no digit. -/
theorem privateFunctionName_injective {i j : FunctionId}
    (h : privateFunctionName i = privateFunctionName j) : i = j := by
  have hletter : ∀ n : ℕ, 'f' ∉ Nat.toDigits 10 n := by
    intro n hmem
    have hdigit := Nat.isDigit_of_mem_toDigits (by norm_num) (by norm_num) hmem
    revert hdigit
    decide
  have hchars := congrArg String.toList h
  simp [privateFunctionName] at hchars
  obtain ⟨hmodule, -, hdeclaration⟩ :=
    (List.append_cons_inj_of_notMem (hletter _) (hletter _)).mp hchars
  obtain ⟨m, d⟩ := i
  obtain ⟨m', d'⟩ := j
  rw [FunctionId.mk.injEq]
  exact ⟨toDigits_injective hmodule, toDigits_injective hdeclaration⟩

theorem temporaryName_ne_valueName (i j : ℕ) : temporaryName i ≠ valueName j :=
  append_ne rfl rfl (by decide) _ _

theorem parameterName_ne_valueName (i j : ℕ) : parameterName i ≠ valueName j :=
  append_ne rfl rfl (by decide) _ _

theorem parameterName_ne_temporaryName (i j : ℕ) : parameterName i ≠ temporaryName j :=
  append_ne rfl rfl (by decide) _ _

theorem blockName_ne_valueName (i : ℕ) : blockName ≠ valueName i := by
  intro h
  have hchars := congrArg String.toList h
  simp [valueName, blockName] at hchars

theorem blockName_ne_temporaryName (i : ℕ) : blockName ≠ temporaryName i := by
  intro h
  have hchars := congrArg String.toList h
  simp [temporaryName, blockName] at hchars

theorem privateFunctionName_ne_imul (id : FunctionId) : privateFunctionName id ≠ "$zryna$imul" := by
  intro h
  have hchars := congrArg String.toList h
  simp [privateFunctionName] at hchars

/-! ### The emitter -/

def emitControlFlowInstruction : InstructionKind → String
  | .boolLiteral value => if value then "true" else "false"
  | .i32Literal value => toString value.toInt
  | .i32Add lhs rhs => "(" ++ valueName lhs ++ " + " ++ valueName rhs ++ ") | 0"
  | .i32Sub lhs rhs => "(" ++ valueName lhs ++ " - " ++ valueName rhs ++ ") | 0"
  | .i32Mul lhs rhs => "$zryna$imul(" ++ valueName lhs ++ ", " ++ valueName rhs ++ ")"
  | .i32Neg operand => "(0 - " ++ valueName operand ++ ") | 0"
  | .eq lhs rhs => valueName lhs ++ " === " ++ valueName rhs
  | .ne lhs rhs => valueName lhs ++ " !== " ++ valueName rhs
  | .i32LtS lhs rhs => valueName lhs ++ " < " ++ valueName rhs
  | .i32LeS lhs rhs => valueName lhs ++ " <= " ++ valueName rhs
  | .i32GtS lhs rhs => valueName lhs ++ " > " ++ valueName rhs
  | .i32GeS lhs rhs => valueName lhs ++ " >= " ++ valueName rhs
  | .directCall callee arguments =>
    privateFunctionName callee ++ "(" ++ String.intercalate ", " (arguments.map valueName) ++ ")"

def emitEdge (target : ℕ) (arguments : List ℕ) (blockParameters : List (List ℕ))
    (indent : String) : String :=
  String.join (arguments.zipIdx.map fun (argument, index) =>
      indent ++ temporaryName index ++ " = " ++ valueName argument ++ ";\n")
    ++ String.join ((blockParameters.getD target []).zipIdx.map fun (parameter, index) =>
      indent ++ valueName parameter ++ " = " ++ temporaryName index ++ ";\n")
    ++ indent ++ "$zryna$block = " ++ toString target ++ ";\n" ++ indent ++ "continue;\n"

def emitTerminator (kind : Terminator) (blockParameters : List (List ℕ)) (indent : String) :
    String :=
  match kind with
  | .return value => indent ++ "return " ++ valueName value ++ ";\n"
  | .jump target arguments => emitEdge target arguments blockParameters indent
  | .branch condition trueTarget trueArguments falseTarget falseArguments =>
    indent ++ "if (" ++ valueName condition ++ " === true) \x7b\n"
      ++ emitEdge trueTarget trueArguments blockParameters (indent ++ "  ")
      ++ indent ++ "\x7d else \x7b\n"
      ++ emitEdge falseTarget falseArguments blockParameters (indent ++ "  ")
      ++ indent ++ "\x7d\n"

/-- The terminator of a block. A verified block has exactly one. -/
def emitBlockTerminator (block : Block) (blockParameters : List (List ℕ)) (indent : String) :
    String :=
  match block.terminators with
  | [] => ""
  | terminator :: _ => emitTerminator terminator.kind blockParameters indent

/-- One `case` of the dispatch. -/
def emitControlFlowBlock (blockParameters : List (List ℕ)) (block : Block) : String :=
  "      case " ++ toString block.id ++ ":\n"
    ++ String.join (block.instructions.map fun instruction =>
      "        " ++ valueName instruction.result.id ++ " = "
        ++ emitControlFlowInstruction instruction.kind ++ ";\n")
    ++ emitBlockTerminator block blockParameters "        "

variable (function : Function)

def edgeTemporaryCount : ℕ := largestParameterCount function

def emitControlFlowFunction : String :=
  "function " ++ privateFunctionName function.id ++ "("
    ++ String.intercalate ", " ((List.range function.parameters.length).map parameterName)
    ++ ") \x7b\n"
    ++ String.join ((List.range (valueCount function)).map fun value =>
      "  let " ++ valueName value ++ ";\n")
    ++ String.join ((List.range (edgeTemporaryCount function)).map fun temporary =>
      "  let " ++ temporaryName temporary ++ ";\n")
    ++ String.join (function.parameters.zipIdx.map fun (parameter, index) =>
      "  " ++ valueName parameter.id ++ " = " ++ parameterName index ++ ";\n")
    ++ "  let $zryna$block = 0;\n" ++ "  while (true) \x7b\n" ++ "    switch ($zryna$block) \x7b\n"
    ++ String.join (function.blocks.map (emitControlFlowBlock (blockParameters function)))
    ++ "      default:\n"
    ++ "        throw new Error(\"ZRYNA-J2001: invalid verified control-flow state\");\n"
    ++ "    \x7d\n" ++ "  \x7d\n" ++ "\x7d\n"

/-! ### The emitted declaration -/

def valueExpr (value : ℕ) : Expr := .ident (valueName value)

/-- A decimal literal. A negative one is the negation of its magnitude. -/
def literalExpr (value : ℤ) : Expr :=
  if value < 0 then .negate (.number value.natAbs) else .number value.natAbs

/-- Truncation to a signed 32-bit integer. -/
def truncated (op : BinaryOp) (lhs rhs : Expr) : Expr :=
  .binary .bitOr (.paren (.binary op lhs rhs)) (.number 0)

def instructionExpr : InstructionKind → Expr
  | .boolLiteral value => .boolean value
  | .i32Literal value => literalExpr value.toInt
  | .i32Add lhs rhs => truncated .add (valueExpr lhs) (valueExpr rhs)
  | .i32Sub lhs rhs => truncated .sub (valueExpr lhs) (valueExpr rhs)
  | .i32Mul lhs rhs => .call "$zryna$imul" [valueExpr lhs, valueExpr rhs]
  | .i32Neg operand => truncated .sub (.number 0) (valueExpr operand)
  | .eq lhs rhs => .binary .strictEq (valueExpr lhs) (valueExpr rhs)
  | .ne lhs rhs => .binary .strictNe (valueExpr lhs) (valueExpr rhs)
  | .i32LtS lhs rhs => .binary .lt (valueExpr lhs) (valueExpr rhs)
  | .i32LeS lhs rhs => .binary .le (valueExpr lhs) (valueExpr rhs)
  | .i32GtS lhs rhs => .binary .gt (valueExpr lhs) (valueExpr rhs)
  | .i32GeS lhs rhs => .binary .ge (valueExpr lhs) (valueExpr rhs)
  | .directCall callee arguments => .call (privateFunctionName callee) (arguments.map valueExpr)

def instructionStmt (instruction : Instruction) : Stmt :=
  .assign (valueName instruction.result.id) (instructionExpr instruction.kind)

/-- Saves the argument of an edge. -/
def saveStmt (entry : ℕ × ℕ) : Stmt := .assign (temporaryName entry.2) (valueExpr entry.1)

/-- Binds the parameter of an edge. -/
def loadStmt (entry : ℕ × ℕ) : Stmt :=
  .assign (valueName entry.1) (.ident (temporaryName entry.2))

def edgeStmts (target : ℕ) (arguments : List ℕ) (blockParameters : List (List ℕ)) : List Stmt :=
  arguments.zipIdx.map saveStmt ++ ((blockParameters.getD target []).zipIdx.map loadStmt
    ++ [.assign blockName (.number target), .continue])

def terminatorStmts (kind : Terminator) (blockParameters : List (List ℕ)) : List Stmt :=
  match kind with
  | .return value => [.ret (valueExpr value)]
  | .jump target arguments => edgeStmts target arguments blockParameters
  | .branch condition trueTarget trueArguments falseTarget falseArguments =>
    [.ifElse (.binary .strictEq (valueExpr condition) (.boolean true))
      (edgeStmts trueTarget trueArguments blockParameters)
      (edgeStmts falseTarget falseArguments blockParameters)]

def blockTerminatorStmts (block : Block) (blockParameters : List (List ℕ)) : List Stmt :=
  match block.terminators with
  | [] => []
  | terminator :: _ => terminatorStmts terminator.kind blockParameters

def blockStmts (blockParameters : List (List ℕ)) (block : Block) : List Stmt :=
  block.instructions.map instructionStmt ++ blockTerminatorStmts block blockParameters

def blockCase (blockParameters : List (List ℕ)) (block : Block) : Case :=
  .mk block.id (blockStmts blockParameters block)

def invalidState : Stmt := .throwError "ZRYNA-J2001: invalid verified control-flow state"

def dispatch : Stmt :=
  .switch (.ident blockName) (function.blocks.map (blockCase (blockParameters function)))
    [invalidState]

/-- The declarations in front of the dispatch loop. -/
def prologue : List Stmt :=
  (List.range (valueCount function)).map (fun value => .declare (valueName value))
    ++ (List.range (edgeTemporaryCount function)).map (fun index => .declare (temporaryName index))
    ++ function.parameters.zipIdx.map (fun (parameter, index) =>
      .assign (valueName parameter.id) (.ident (parameterName index)))
    ++ [.declareInit blockName (.number 0)]

def functionDeclaration : Func where
  name := privateFunctionName function.id
  parameters := (List.range function.parameters.length).map parameterName
  body := prologue function ++ [.while (.boolean true) [dispatch function]]

/-! ### The text is the rendering -/

theorem toString_int (n : ℤ) : toString n = (literalExpr n).text := by
  unfold literalExpr
  rw [Int.toString_eq_repr, Int.repr_eq_if]
  split
  · next h =>
    rw [if_neg (by omega), show n.toNat = n.natAbs by omega]
    simp [Expr.text]
  · next h =>
    rw [if_pos (by omega), show (-n).toNat = n.natAbs by omega]
    simp [Expr.text]

theorem text_instructionExpr (kind : InstructionKind) :
    (instructionExpr kind).text = emitControlFlowInstruction kind := by
  have hzero : Nat.repr 0 = "0" := rfl
  cases kind with
  | i32Literal value => exact (toString_int value.toInt).symm
  | boolLiteral value => rfl
  | i32Neg operand =>
    simp only [instructionExpr, emitControlFlowInstruction, Expr.text, truncated, valueExpr,
      BinaryOp.text, Nat.toString_eq_repr, hzero, String.append_assoc]
    rfl
  | directCall callee arguments =>
    simp [instructionExpr, emitControlFlowInstruction, Expr.text, Expr.texts_eq, valueExpr,
      Function.comp_def]
  | _ =>
    simp [instructionExpr, emitControlFlowInstruction, Expr.text, Expr.texts, truncated, valueExpr,
      BinaryOp.text, String.append_assoc, hzero]

theorem texts_edgeStmts (target : ℕ) (arguments : List ℕ) (blockParameters : List (List ℕ))
    (indent : String) : Stmt.texts indent (edgeStmts target arguments blockParameters)
      = emitEdge target arguments blockParameters indent := by
  simp [edgeStmts, emitEdge, Stmt.texts_append, Stmt.texts_map, Stmt.texts, Stmt.text, saveStmt,
    loadStmt, Expr.text, valueExpr, blockName, String.append_assoc]

theorem texts_blockStmts (parameters : List (List ℕ)) (block : Block) :
    (blockCase parameters block).text "      " = emitControlFlowBlock parameters block := by
  have hterminator : Stmt.texts "        " (blockTerminatorStmts block parameters)
      = emitBlockTerminator block parameters "        " := by
    unfold blockTerminatorStmts emitBlockTerminator
    split
    · rfl
    · next terminator _ _ =>
      cases terminator.kind <;>
        simp [terminatorStmts, emitTerminator, texts_edgeStmts, Stmt.texts, Stmt.text, Expr.text,
          valueExpr, BinaryOp.text, String.append_assoc]
  simp [blockCase, blockStmts, emitControlFlowBlock, Case.text, Stmt.texts_append, Stmt.texts_map,
    hterminator, instructionStmt, Stmt.text, text_instructionExpr, String.append_assoc]

/-- The emitted text is the text of the declaration. -/
theorem emitControlFlowFunction_eq_render :
    emitControlFlowFunction function = (functionDeclaration function).render := by
  have hcases : (function.blocks.map fun block =>
      (blockCase (blockParameters function) block).text "      ")
      = function.blocks.map (emitControlFlowBlock (blockParameters function)) :=
    List.map_congr_left fun block _ => texts_blockStmts _ block
  have hinit : Stmt.text "  " (.declareInit blockName (.number 0)) = "  let $zryna$block = 0;\n" :=
    rfl
  have hinvalid : invalidState.text "        "
      = "        throw new Error(\"ZRYNA-J2001: invalid verified control-flow state\");\n" := rfl
  unfold emitControlFlowFunction functionDeclaration Func.render prologue
  simp only [Stmt.texts_append, Stmt.texts_map, Stmt.texts, hinit]
  simp only [Stmt.text, dispatch, Case.texts_map, Stmt.texts, Expr.text, blockName, if_true,
    String.append_empty, String.reduceAppend, hcases, hinvalid]
  simp only [String.append_assoc, -String.reduceAppend]

end Zryna.Backend.JavaScript
