import Zryna.Foundation.Traced
import Zryna.JavaScript.Number

/-!
# A core of JavaScript

Functions over primitive values: declarations, assignments, conditionals, loops, `switch`, calls
of functions of the script, and the operators on numbers and booleans. Scripts are strict, so that
a variable must be declared before it is read or assigned.

Evaluation is structural in the code. Fuel bounds two things only: how many rounds a loop runs and
how deep calls nest. A function that diverges is one that runs out of every fuel. Uncaught
exceptions are faults.

Evaluation keeps a trace of every access to a variable and of every result of an arithmetic
operator, each with the function it happened in.

`render` is the concrete syntax of a function: one statement a line, indented by two spaces for
each enclosing brace or `case`.
-/

namespace Zryna.JavaScript

/-! ### Syntax -/

/-- Primitive values. -/
inductive Value where
  | undefined
  | boolean (value : Bool)
  | number (value : Number)
deriving DecidableEq

inductive BinaryOp where
  | add
  | sub
  | mul
  | bitAnd
  | bitOr
  | shiftLeft
  | unsignedShiftRight
  | strictEq
  | strictNe
  | lt
  | le
  | gt
  | ge
deriving DecidableEq

/-- Expressions. Parentheses are part of the tree, so that it determines its text. -/
inductive Expr where
  | boolean (value : Bool)
  | number (value : ℕ)
  | ident (name : String)
  | negate (operand : Expr)
  | paren (inner : Expr)
  | binary (op : BinaryOp) (lhs rhs : Expr)
  | call (name : String) (arguments : List Expr)

mutual

/-- Statements. -/
inductive Stmt where
  | declare (name : String)
  | declareInit (name : String) (value : Expr)
  | constant (name : String) (value : Expr)
  | assign (name : String) (value : Expr)
  | ret (value : Expr)
  | ifElse (condition : Expr) (thenBody elseBody : List Stmt)
  | while (condition : Expr) (body : List Stmt)
  | switch (discriminant : Expr) (cases : List Case) (default : List Stmt)
  | continue
  | throwError (message : String)

/-- A clause of a `switch`. -/
inductive Case where
  | mk (label : ℕ) (body : List Stmt)

end

/-- A function declaration. -/
structure Func where
  name : String
  parameters : List String
  body : List Stmt

/-! ### Concrete syntax -/

def BinaryOp.text : BinaryOp → String
  | .add => "+"
  | .sub => "-"
  | .mul => "*"
  | .bitAnd => "&"
  | .bitOr => "|"
  | .shiftLeft => "<<"
  | .unsignedShiftRight => ">>>"
  | .strictEq => "==="
  | .strictNe => "!=="
  | .lt => "<"
  | .le => "<="
  | .gt => ">"
  | .ge => ">="

mutual

def Expr.text : Expr → String
  | .boolean value => if value then "true" else "false"
  | .number value => toString value
  | .ident name => name
  | .negate operand => "-" ++ operand.text
  | .paren inner => "(" ++ inner.text ++ ")"
  | .binary op lhs rhs => lhs.text ++ " " ++ op.text ++ " " ++ rhs.text
  | .call name arguments => name ++ "(" ++ String.intercalate ", " (Expr.texts arguments) ++ ")"

def Expr.texts : List Expr → List String
  | [] => []
  | expr :: rest => expr.text :: Expr.texts rest

end

theorem Expr.texts_eq (exprs : List Expr) : Expr.texts exprs = exprs.map Expr.text := by
  induction exprs with
  | nil => rw [Expr.texts, List.map_nil]
  | cons expr rest ih => rw [Expr.texts, List.map_cons, ih]

mutual

/-- A statement at an indentation. -/
def Stmt.text (indent : String) : Stmt → String
  | .declare name => indent ++ "let " ++ name ++ ";\n"
  | .declareInit name value => indent ++ "let " ++ name ++ " = " ++ value.text ++ ";\n"
  | .constant name value => indent ++ "const " ++ name ++ " = " ++ value.text ++ ";\n"
  | .assign name value => indent ++ name ++ " = " ++ value.text ++ ";\n"
  | .ret value => indent ++ "return " ++ value.text ++ ";\n"
  | .ifElse condition thenBody elseBody =>
    indent ++ "if (" ++ condition.text ++ ") \x7b\n" ++ Stmt.texts (indent ++ "  ") thenBody
      ++ (indent ++ "\x7d else \x7b\n") ++ Stmt.texts (indent ++ "  ") elseBody
      ++ (indent ++ "\x7d\n")
  | .while condition body =>
    indent ++ "while (" ++ condition.text ++ ") \x7b\n" ++ Stmt.texts (indent ++ "  ") body
      ++ (indent ++ "\x7d\n")
  | .switch discriminant cases default =>
    indent ++ "switch (" ++ discriminant.text ++ ") \x7b\n" ++ Case.texts (indent ++ "  ") cases
      ++ (indent ++ "  default:\n") ++ Stmt.texts (indent ++ "    ") default
      ++ (indent ++ "\x7d\n")
  | .continue => indent ++ "continue;\n"
  | .throwError message => indent ++ "throw new Error(\"" ++ message ++ "\");\n"

def Stmt.texts (indent : String) : List Stmt → String
  | [] => ""
  | stmt :: rest => stmt.text indent ++ Stmt.texts indent rest

def Case.text (indent : String) : Case → String
  | .mk label body =>
    indent ++ "case " ++ toString label ++ ":\n" ++ Stmt.texts (indent ++ "  ") body

def Case.texts (indent : String) : List Case → String
  | [] => ""
  | clause :: rest => clause.text indent ++ Case.texts indent rest

end

theorem Stmt.texts_append (indent : String) (xs ys : List Stmt) :
    Stmt.texts indent (xs ++ ys) = Stmt.texts indent xs ++ Stmt.texts indent ys := by
  induction xs with
  | nil => rw [List.nil_append, Stmt.texts, String.empty_append]
  | cons x xs ih => rw [List.cons_append, Stmt.texts, Stmt.texts, ih, String.append_assoc]

theorem Stmt.texts_map {α : Type} (indent : String) (f : α → Stmt) (xs : List α) :
    Stmt.texts indent (xs.map f) = String.join (xs.map fun x => (f x).text indent) := by
  induction xs with
  | nil => rfl
  | cons x xs ih => rw [List.map_cons, Stmt.texts, ih, List.map_cons, String.join_cons]

theorem Case.texts_map {α : Type} (indent : String) (f : α → Case) (xs : List α) :
    Case.texts indent (xs.map f) = String.join (xs.map fun x => (f x).text indent) := by
  induction xs with
  | nil => rfl
  | cons x xs ih => rw [List.map_cons, Case.texts, ih, List.map_cons, String.join_cons]

/-- The text of a function declaration. -/
def Func.render (func : Func) : String :=
  "function " ++ func.name ++ "(" ++ String.intercalate ", " func.parameters ++ ") \x7b\n"
    ++ Stmt.texts "  " func.body ++ "\x7d\n"

/-! ### Operators -/

def Value.toNumber : Value → Number
  | .undefined => .nan
  | .boolean value => .ofInt (if value then 1 else 0)
  | .number value => value

def Value.toBoolean : Value → Bool
  | .undefined => false
  | .boolean value => value
  | .number .nan => false
  | .number value => !value.strictEq (.ofInt 0)

def Value.strictEq : Value → Value → Bool
  | .undefined, .undefined => true
  | .boolean x, .boolean y => x == y
  | .number x, .number y => x.strictEq y
  | _, _ => false

/-- The result of an operator. `x >= y` is the negation of `x < y` where that is defined. -/
def BinaryOp.apply : BinaryOp → Value → Value → Value
  | .add, x, y => .number (x.toNumber.add y.toNumber)
  | .sub, x, y => .number (x.toNumber.sub y.toNumber)
  | .mul, x, y => .number (x.toNumber.mul y.toNumber)
  | .bitAnd, x, y => .number (x.toNumber.bitAnd y.toNumber)
  | .bitOr, x, y => .number (x.toNumber.bitOr y.toNumber)
  | .shiftLeft, x, y => .number (x.toNumber.shiftLeft y.toNumber)
  | .unsignedShiftRight, x, y => .number (x.toNumber.unsignedShiftRight y.toNumber)
  | .strictEq, x, y => .boolean (x.strictEq y)
  | .strictNe, x, y => .boolean !(x.strictEq y)
  | .lt, x, y => .boolean ((x.toNumber.lt y.toNumber).getD false)
  | .le, x, y => .boolean (((y.toNumber.lt x.toNumber).map not).getD false)
  | .gt, x, y => .boolean ((y.toNumber.lt x.toNumber).getD false)
  | .ge, x, y => .boolean (((x.toNumber.lt y.toNumber).map not).getD false)

/-! ### Evaluation -/

/-- What a trace records. -/
inductive Observation where
  | access (function name : String) (value : Value)
  | arithmetic (function : String) (op : BinaryOp) (lhs rhs result : Number)
deriving DecidableEq

/-- The function an event happened in. -/
def Observation.function : Observation → String
  | .access function _ _ => function
  | .arithmetic function _ _ _ _ => function

/-- The integer operation an arithmetic operator stands for. -/
def BinaryOp.onInt : BinaryOp → ℤ → ℤ → ℤ
  | .add, x, y => x + y
  | .sub, x, y => x - y
  | .mul, x, y => x * y
  | _, _, _ => 0

/-- Arithmetic stays on integers below `2 ^ 53` in magnitude, and so is exact. -/
def Observation.Exact : Observation → Prop
  | .access _ _ _ => True
  | .arithmetic _ op lhs rhs result => ∃ x y : ℤ, lhs = .ofInt x ∧ rhs = .ofInt y
      ∧ result = .ofInt (op.onInt x y) ∧ |op.onInt x y| < 2 ^ 53

/-- Why an evaluation stopped without a result. A `continue` outside of a loop is no program. -/
inductive Fault where
  | referenceError (name : String)
  | typeError (name : String)
  | thrown (message : String)
  | invalid
deriving DecidableEq

abbrev Run := Traced Observation Fault

/-- A declared variable. -/
structure Binding where
  mutable : Bool
  value : Value
deriving DecidableEq

/-- The variables of an activation. -/
abbrev Scope := String → Option Binding

section

variable (scope : Scope) (name : String) (mutable : Bool) (value : Value)

/-- Declares a variable. -/
def Scope.declare : Scope :=
  Function.update scope name (some ⟨mutable, value⟩)

@[simp] theorem Scope.declare_self : scope.declare name mutable value name = some ⟨mutable, value⟩ :=
  Function.update_self ..

end

theorem Scope.declare_of_ne {name other : String} (h : other ≠ name) (scope : Scope)
    (mutable : Bool) (value : Value) : scope.declare name mutable value other = scope other :=
  Function.update_of_ne h ..

/-- How a piece of code completed. -/
inductive Signal where
  | next
  | again
  | exit (value : Value)
deriving DecidableEq

section Eval

variable (invoke : String → List Value → Run Value) (function : String)

/-- Applies an operator and records what was computed in binary64. -/
def evalBinary (op : BinaryOp) (x y : Value) : Run Value :=
  match op with
  | .add | .sub | .mul => do
    Traced.tell (.arithmetic function op x.toNumber y.toNumber (op.apply x y).toNumber)
    pure (op.apply x y)
  | op => pure (op.apply x y)

mutual

/-- Expressions are evaluated from left to right. -/
def eval (scope : Scope) : Expr → Run Value
  | .boolean value => pure (.boolean value)
  | .number value => pure (.number (.ofRat false value))
  | .ident name =>
    match scope name with
    | none => Traced.fault (.referenceError name)
    | some binding => do
      Traced.tell (.access function name binding.value)
      pure binding.value
  | .negate operand => do
    let value ← eval scope operand
    pure (.number value.toNumber.neg)
  | .paren inner => eval scope inner
  | .binary op lhs rhs => do
    let x ← eval scope lhs
    let y ← eval scope rhs
    evalBinary function op x y
  | .call name arguments => do
    let values ← evalAll scope arguments
    invoke name values

def evalAll (scope : Scope) : List Expr → Run (List Value)
  | [] => pure []
  | expr :: rest => do
    let value ← eval scope expr
    let values ← evalAll scope rest
    pure (value :: values)

end

/-- An assignment to a declared variable. -/
def assign (scope : Scope) (name : String) (value : Value) : Run Scope :=
  match scope name with
  | none => Traced.fault (.referenceError name)
  | some binding =>
    if binding.mutable then do
      Traced.tell (.access function name value)
      pure (scope.declare name true value)
    else Traced.fault (.typeError name)

/-- Rounds of a loop, at most `fuel` of them. -/
def loopRounds (condition : Scope → Run Value) (body : Scope → Run (Scope × Signal)) :
    ℕ → Scope → Run (Scope × Signal)
  | 0, _ => Traced.timeout
  | fuel + 1, scope => do
    let value ← condition scope
    if value.toBoolean then do
      let (scope, signal) ← body scope
      match signal with
      | .exit value => pure (scope, .exit value)
      | _ => loopRounds condition body fuel scope
    else pure (scope, .next)

/-- Goes on after a normal completion. -/
def andThen (completion : Scope × Signal) (rest : Scope → Run (Scope × Signal)) :
    Run (Scope × Signal) :=
  match completion.2 with
  | .next => rest completion.1
  | signal => pure (completion.1, signal)

variable (fuel : ℕ)

mutual

/-- One statement. -/
def execStmt (scope : Scope) : Stmt → Run (Scope × Signal)
  | .declare name => pure (scope.declare name true .undefined, .next)
  | .declareInit name value => do
    let value ← eval invoke function scope value
    Traced.tell (.access function name value)
    pure (scope.declare name true value, .next)
  | .constant name value => do
    let value ← eval invoke function scope value
    Traced.tell (.access function name value)
    pure (scope.declare name false value, .next)
  | .assign name value => do
    let value ← eval invoke function scope value
    let scope ← assign function scope name value
    pure (scope, .next)
  | .ret value => do
    let value ← eval invoke function scope value
    pure (scope, .exit value)
  | .ifElse condition thenBody elseBody => do
    let value ← eval invoke function scope condition
    if value.toBoolean then exec scope thenBody else exec scope elseBody
  | .while condition body =>
    loopRounds (fun scope => eval invoke function scope condition) (fun scope => exec scope body)
      fuel scope
  | .switch discriminant cases default => do
    let value ← eval invoke function scope discriminant
    execCases value false scope cases fun scope => exec scope default
  | .continue => pure (scope, .again)
  | .throwError message => Traced.fault (.thrown message)

/-- Statements in order, left as soon as one does not complete normally. -/
def exec (scope : Scope) : List Stmt → Run (Scope × Signal)
  | [] => pure (scope, .next)
  | stmt :: rest => do
    let completion ← execStmt scope stmt
    andThen completion fun scope => exec scope rest

/-- The clauses of a `switch`: the first whose label equals the value is entered, and control falls
through the clauses after it. -/
def execCases (value : Value) (entered : Bool) (scope : Scope) :
    List Case → (Scope → Run (Scope × Signal)) → Run (Scope × Signal)
  | [], default => default scope
  | clause :: rest, default => do
    let (found, completion) ← execCase value entered scope clause
    andThen completion fun scope => execCases value found scope rest default

/-- One clause: whether it has been entered, and how it completed. -/
def execCase (value : Value) (entered : Bool) (scope : Scope) : Case → Run (Bool × (Scope × Signal))
  | .mk label body =>
    if entered || value.strictEq (.number (.ofRat false label)) then do
      let completion ← exec scope body
      pure (true, completion)
    else pure (false, (scope, .next))

end

/-- The scope a call starts with. Missing arguments are undefined, further ones are dropped. -/
def enter : List String → List Value → Scope → Scope
  | [], _, scope => scope
  | name :: names, [], scope => enter names [] (scope.declare name true .undefined)
  | name :: names, value :: values, scope => enter names values (scope.declare name true value)

/-- The body of a function. -/
def execBody (func : Func) (arguments : List Value) : Run Value := do
  let (_, signal) ←
    exec invoke func.name fuel (enter func.parameters arguments fun _ => none) func.body
  match signal with
  | .next => pure .undefined
  | .again => Traced.fault .invalid
  | .exit value => pure value

end Eval

/-- The function of a name. -/
def findFunc (script : List Func) (name : String) : Option Func :=
  script.find? fun func => func.name = name

/-- Calls a function of a script: loops have `n` rounds, and calls made by the function have fuel
`n - 1`. At fuel `0` a function that neither loops nor calls still runs. -/
def invoke (script : List Func) : ℕ → String → List Value → Run Value
  | 0, name, arguments =>
    match findFunc script name with
    | none => Traced.fault (.referenceError name)
    | some func => execBody (fun _ _ => Traced.timeout) 0 func arguments
  | fuel + 1, name, arguments =>
    match findFunc script name with
    | none => Traced.fault (.referenceError name)
    | some func => execBody (invoke script fuel) (fuel + 1) func arguments

/-! ### Rules -/

section Rules

variable {call : String → List Value → Run Value} {function : String} {fuel : ℕ} {scope : Scope}
  {P : Observation → Prop}

open Traced

variable {name : String} {lhs rhs value : Expr} {op : BinaryOp} {x y : Value} {scope' : Scope}
  {names : List String}

theorem yields_ident {binding : Binding} (hscope : scope name = some binding)
    (hP : P (.access function name binding.value)) :
    Yields P (eval call function scope (.ident name)) binding.value := by
  rw [eval, hscope]
  exact (Yields.tell hP).bind (Yields.pure _)

theorem yields_number {n : ℕ} (hn : n < 2 ^ 53) :
    Yields P (eval call function scope (.number n)) (.number (.ofInt n)) := by
  rw [← Number.ofRat_natCast hn]
  exact Yields.pure _

/-- An operator that does not compute in binary64. -/
theorem yields_binary
    (hop : op ≠ .add ∧ op ≠ .sub ∧ op ≠ .mul) (hx : Yields P (eval call function scope lhs) x)
    (hy : Yields P (eval call function scope rhs) y) :
    Yields P (eval call function scope (.binary op lhs rhs)) (op.apply x y) := by
  refine hx.bind (hy.bind ?_)
  cases op with
  | add => exact absurd rfl hop.1
  | sub => exact absurd rfl hop.2.1
  | mul => exact absurd rfl hop.2.2
  | _ => exact Yields.pure _

/-- An operator that computes in binary64. -/
theorem yields_arithmetic {x y z : Number} (hop : op = .add ∨ op = .sub ∨ op = .mul)
    (happly : op.apply (.number x) (.number y) = .number z) (hP : P (.arithmetic function op x y z))
    (hx : Yields P (eval call function scope lhs) (.number x))
    (hy : Yields P (eval call function scope rhs) (.number y)) :
    Yields P (eval call function scope (.binary op lhs rhs)) (.number z) := by
  refine hx.bind (hy.bind ?_)
  rw [← happly]
  have hz : z = (op.apply (.number x) (.number y)).toNumber := by rw [happly]; rfl
  rw [hz] at hP
  rcases hop with rfl | rfl | rfl <;> exact (Yields.tell hP).bind (Yields.pure _)

theorem exec_nil : exec call function fuel scope [] = pure (scope, .next) := rfl

theorem exec_cons (stmt : Stmt) (rest : List Stmt) :
    exec call function fuel scope (stmt :: rest)
      = execStmt call function fuel scope stmt >>= fun completion =>
        andThen completion fun scope => exec call function fuel scope rest := rfl

@[simp] theorem exec_singleton (stmt : Stmt) :
    exec call function fuel scope [stmt] = execStmt call function fuel scope stmt := by
  have hlast : ∀ completion : Scope × Signal,
      (andThen completion fun scope => exec call function fuel scope []) = pure completion := by
    rintro ⟨scope', signal⟩
    cases signal with
    | next => rw [andThen, exec_nil]
    | _ => rfl
  rw [exec_cons]
  simp only [hlast]
  exact Traced.bind_pure _

theorem exec_append (xs ys : List Stmt) (scope : Scope) :
    exec call function fuel scope (xs ++ ys)
      = exec call function fuel scope xs >>= fun completion =>
        andThen completion fun scope => exec call function fuel scope ys := by
  induction xs generalizing scope with
  | nil => rw [List.nil_append, exec_nil]; rfl
  | cons x xs ih =>
    rw [List.cons_append, exec_cons, exec_cons, bind_assoc]
    refine congrArg _ (funext fun completion => ?_)
    obtain ⟨scope', signal⟩ := completion
    cases signal with
    | next => exact ih scope'
    | again => rfl
    | exit value => rfl

variable {completion : Scope × Signal}

/-- A first statement that completes normally. -/
theorem Yields.exec_cons {stmt : Stmt} {rest : List Stmt}
    (h : Yields P (execStmt call function fuel scope stmt) (scope', .next))
    (hrest : Yields P (exec call function fuel scope' rest) completion) :
    Yields P (exec call function fuel scope (stmt :: rest)) completion := by
  rw [JavaScript.exec_cons]
  exact h.bind hrest

theorem Yields.exec_append {xs ys : List Stmt}
    (h : Yields P (exec call function fuel scope xs) (scope', .next))
    (hrest : Yields P (exec call function fuel scope' ys) completion) :
    Yields P (exec call function fuel scope (xs ++ ys)) completion := by
  rw [JavaScript.exec_append]
  exact h.bind hrest

theorem yields_assign (hvalue : Yields P (eval call function scope value) x)
    (hdeclared : scope name = some ⟨true, y⟩) (hP : P (.access function name x)) :
    Yields P (execStmt call function fuel scope (.assign name value))
      (scope.declare name true x, .next) := by
  have hassign : Yields P (assign function scope name x) (scope.declare name true x) := by
    rw [assign, hdeclared]
    exact (Yields.tell hP).bind (Yields.pure _)
  exact hvalue.bind (hassign.bind (Yields.pure _))

/-- Declarations without a value. -/
theorem yields_declares (names : List String) (scope : Scope) :
    ∃ scope', Yields P (exec call function fuel scope (names.map Stmt.declare)) (scope', .next)
      ∧ (∀ name ∈ names, scope' name = some ⟨true, .undefined⟩)
      ∧ ∀ name ∉ names, scope' name = scope name := by
  induction names generalizing scope with
  | nil => exact ⟨scope, by rw [List.map_nil, exec_nil]; exact Yields.pure _, by simp, by simp⟩
  | cons name names ih =>
    obtain ⟨scope', hexec, hmem, hother⟩ := ih (scope.declare name true .undefined)
    refine ⟨scope', ?_, fun x hx => ?_, fun x hx => ?_⟩
    · rw [List.map_cons]
      exact Yields.exec_cons (Yields.pure _) hexec
    · by_cases hrest : x ∈ names
      · exact hmem x hrest
      · obtain rfl : x = name := by simpa [hrest] using hx
        rw [hother x hrest, Scope.declare_self]
    · rw [List.mem_cons, not_or] at hx
      rw [hother x hx.2, Scope.declare_of_ne hx.1]

theorem yields_constant
    (hvalue : Yields P (eval call function scope value) x) (hP : P (.access function name x)) :
    Yields P (execStmt call function fuel scope (.constant name value))
      (scope.declare name false x, .next) := by
  exact hvalue.bind ((Yields.tell hP).bind (Yields.pure _))

theorem enter_of_notMem (h : name ∉ names)
    (values : List Value) (scope : Scope) : enter names values scope name = scope name := by
  induction names generalizing values scope with
  | nil => rw [enter]
  | cons head names ih =>
    rw [List.mem_cons, not_or] at h
    cases values with
    | nil => rw [enter, ih h.2, Scope.declare_of_ne h.1]
    | cons value values => rw [enter, ih h.2, Scope.declare_of_ne h.1]

/-- Arguments are bound to the parameters in order. -/
theorem enter_getElem? (hnodup : names.Nodup) {i : ℕ} (hname : names[i]? = some name)
    {values : List Value} {value : Value} (hvalue : values[i]? = some value) (scope : Scope) :
    enter names values scope name = some ⟨true, value⟩ := by
  induction names generalizing values scope i with
  | nil => simp at hname
  | cons head names ih =>
    rw [List.nodup_cons] at hnodup
    cases values with
    | nil => simp at hvalue
    | cons first values =>
      rw [enter]
      cases i with
      | zero =>
        obtain rfl : head = name := by simpa using hname
        obtain rfl : first = value := by simpa using hvalue
        rw [enter_of_notMem hnodup.1, Scope.declare_self]
      | succ i => exact ih hnodup.2 (by simpa using hname) (by simpa using hvalue) _

end Rules

end Zryna.JavaScript
