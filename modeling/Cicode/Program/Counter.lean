import Cicode.Program.Lower

/-!
# Lowering with a counter

Lowering may also be told how deep it is nested by a counter that all calls share.  A call that spends a
level adds one to the counter, unless that would take it beyond the limit, and takes it back when it
returns, whether it has a result or not.  What is left out is put down as lowering goes.

A run has no result at all if the counter leaves its range, or if the fuel, which bounds how deep calls
may go, is used up.
-/

namespace Cicode.Program

open Text Cicode.Lex Cicode.Tree Grammar

/-- What lowering keeps while it goes. -/
structure Progress where
  /-- How deep it is nested. -/
  counter : Nat
  /-- What was left out so far. -/
  dropped : List Dropped

/-- Lowering that keeps a counter. -/
abbrev Counted (α : Type) := ExceptT LowerError (StateT Progress Option) α

namespace Counted

/-- No result at all. -/
def stuck {α : Type} : Counted α := ExceptT.mk failure

/-- What takes no counter. -/
def lift {α : Type} (x : Lowered α) : Counted α := ExceptT.mk (pure x)

/-- Give the counter a value, which has to be in its range. -/
def setCounter (value : Int) : StateT Progress Option Unit :=
  if 0 ≤ value ∧ value ≤ maxNesting then modify ({ · with counter := value.toNat }) else failure

/-- One level further in, if there is one. -/
def nested {α : Type} (body : Counted α) : Counted α := ExceptT.mk do
  let before ← get
  if maxNesting < before.counter + 1 then return .error .tooDeep
  setCounter (before.counter + 1)
  let result ← body.run
  let after ← get
  setCounter (after.counter - 1)
  return result

/-- Whatever comes of the body, go on. -/
def attempt {α : Type} (body : Counted α) : Counted (Lowered α) := ExceptT.mk do
  let result ← body.run
  return .ok result

/-- Leave a node out. -/
def leaveOut (dropped : Dropped) : Counted Unit := ExceptT.mk do
  modify fun progress => { progress with dropped := progress.dropped ++ [dropped] }
  return .ok ()

/-! ## Expressions -/

/-- A function call, given how to lower its arguments. -/
def call (source : Source) (argument : Node → Counted Expr) (node : Node) :
    Counted (String × List Expr) := do
  let parts := node.significant
  let (function, _) ← lift (identifier source .functionName (parts.find? (·.kind == .functionName)))
  let arguments ← (parts.filter (·.kind == .expression)).mapM argument
  return (function, arguments)

/-- An atom of an expression, given how to lower an expression inside it. -/
def atom (source : Source) (inner : Node → Counted Expr) (node : Node) : Counted Expr := do
  let first ← lift (require .expression node.firstToken)
  let operand := lift (require .expression node.significant.head?)
  match first.kind with
  | .minus => return .negate (spanOf node) (← inner (← operand))
  | .lparen => return (← inner (← operand)).withSpan (spanOf node)
  | .error => lift (.error (.unexpected (String.ofList (textOf source first))))
  | _ => if first.isMissing then lift (.error (.missing .expression)) else inner first

/-- What an expression does once a level is spent, given how to lower an expression inside it. -/
def expressionBody (source : Source) (inner : Node → Counted Expr) (node : Node) : Counted Expr :=
  let unexpected := lift (.error (.unexpected (String.ofList (textOf source node))))
  match node.kind with
  | .expression =>
    match node.significant with
    | [operand] =>
      if operand.kind == .expressionAtom then atom source inner operand else inner operand
    | [left, operator, right] => do
      let operator ← lift (operatorOf binaryOperator? operator)
      return .binary (spanOf node) operator (← inner left) (← inner right)
    | _ => unexpected
  | .expressionAtom => atom source inner node
  | .functionCall => do
    let (function, arguments) ← call source inner node
    return .call (spanOf node) function arguments
  | .variableName => do
    let (name, span) ← lift (identifier source .expression (some node))
    return .variable span name
  | .number | .string => do
    match ← lift (literal source node) with
    | .number value => return .number (spanOf node) value
    | .string value => return .string (spanOf node) value
  | _ => unexpected

/-- An expression. -/
def expression (source : Source) : Nat → Node → Counted Expr
  | 0, _ => stuck
  | fuel + 1, node => nested (expressionBody source (expression source fuel) node)

/-! ## Conditions -/

/-- What an atom of a condition does once a level is spent, given how to lower what is inside it. -/
def conditionalAtomBody (expr : Node → Counted Expr) (condition atom : Node → Counted Condition)
    (node : Node) : Counted Condition := do
  let first ← lift (require .condition node.firstToken)
  let operand ← lift (require .condition node.significant.head?)
  match first.kind with
  | .kwNot =>
    let inner ← if operand.kind == .conditionalAtom then atom operand else do
      let value ← expr operand
      pure (.expr value.span value)
    return .not (spanOf node) inner
  | .lparen => return (← condition operand).withSpan (spanOf node)
  | _ => return .expr (spanOf node) (← expr operand)

mutual

/-- A condition.  It spends a level if it has an operator. -/
def condition (source : Source) : Nat → Node → Counted Condition
  | 0, _ => stuck
  | fuel + 1, node =>
    match node.significant with
    | [operand] =>
      if operand.kind == .conditionalAtom then conditionalAtom source fuel operand
      else if operand.kind == .conditionalStatement then condition source fuel operand
      else return .expr (spanOf node) (← expression source fuel operand)
    | [left, operator, right] => nested do
      let operator ← lift (operatorOf conditionOperator? operator)
      return .binary (spanOf node) operator (← condition source fuel left)
        (← condition source fuel right)
    | _ => lift (.error (.missing .condition))

/-- An atom of a condition. -/
def conditionalAtom (source : Source) : Nat → Node → Counted Condition
  | 0, _ => stuck
  | fuel + 1, node => nested <|
    conditionalAtomBody (expression source fuel) (fun n => condition source fuel n)
      (fun n => conditionalAtom source fuel n) node

end

/-! ## Statements -/

/-- An IF statement, given how to lower its condition and its branches. -/
def branch (condition : Node → Counted Condition) (block : List Node → Counted (List Statement))
    (span : Span) (node : Node) : Counted Statement := do
  let parts := node.children
  let test ← lift (require .condition (parts.find? (·.kind == .conditionalStatement)))
  let test ← condition test
  let (before, fromElse) := parts.span (·.kind != .kwElse)
  let thenPart ← block before
  match fromElse with
  | [] => return .branch span test thenPart none
  | _ :: afterElse =>
    let elsePart ← block afterElse
    return .branch span test thenPart (some elsePart)

/-- A statement, given how to lower its branches. -/
def statement (source : Source) (fuel : Nat) (block : List Node → Counted (List Statement))
    (node : Node) : Counted Statement :=
  if node.kind == .returnStatement then
    match node.significant.find? (·.kind == .expression) with
    | none => return .return (spanOf node) none
    | some value => do return .return (spanOf node) (some (← expression source fuel value))
  else do
    let span := spanOf node
    let inner ← lift (require .statement node.significant.head?)
    match inner.kind with
    | .variableAssignment =>
      let parts := inner.significant
      let (target, targetSpan) ←
        lift (identifier source .assignmentTarget (parts.find? (·.kind == .variableName)))
      let value ← lift (require .assignedValue
        ((parts.find? (·.kind == .expressionVariableAssignments)).bind (·.significant.head?)))
      return .assign span target targetSpan (← expression source fuel value)
    | .ifStatement => branch (condition source fuel) block span inner
    | .functionCall =>
      let (function, arguments) ← call source (expression source fuel) inner
      return .call span function arguments
    | _ => lift (.error (.unexpected (String.ofList (textOf source inner))))

/-- The statements among some nodes, given how to lower one. -/
def statements (lower : Node → Counted Statement) : List Node → Counted (List Statement)
  | [] => return []
  | node :: rest =>
    if node.kind == .statementOrExpression || node.kind == .returnStatement then do
      match ← attempt (lower node) with
      | .ok lowered => return lowered :: (← statements lower rest)
      | .error cause =>
        leaveOut ⟨node, cause⟩
        statements lower rest
    else statements lower rest

/-- A block. -/
def block (source : Source) : Nat → List Node → Counted (List Statement)
  | 0, _ => stuck
  | fuel + 1, nodes => nested (statements (statement source fuel (block source fuel)) nodes)

end Counted

end Cicode.Program
