import Cicode.Program.Diagnostic
import Cicode.Program.Function
import Cicode.Tree.Problem

/-!
# From syntax trees to programs

Lowering turns a syntax tree into a program. What cannot be lowered is dropped and reported: a
statement, a declaration, a parameter or a whole function, whichever is the smallest of them around
the fault. A node that holds a syntax problem is dropped without a report, since the problem has
been reported already.

Nesting is limited. Expressions, conditions and blocks are lowered with a number of levels that are
left; each level spends one, and what needs more than there are is too deep.
-/

namespace Cicode.Program

open Text Cicode.Lex Cicode.Tree Grammar

/-- How many levels a function may nest. -/
def maxNesting : Nat := 256

/-- The parts of a program that may be missing. -/
inductive Part where
  | functionHeader | functionName | type | parameterName | defaultValue | value | variableName
  | initialValue | statement | assignmentTarget | assignedValue | condition | expression | operator
  deriving DecidableEq, Repr, Inhabited

/-- Why a node could not be lowered. -/
inductive LowerError where
  /-- A part is not there. -/
  | missing (part : Part)
  /-- Something else is there. -/
  | unexpected (text : String)
  /-- A number is too large. -/
  | numberOutOfRange (digits : String)
  /-- The nesting is too deep. -/
  | tooDeep
  deriving DecidableEq, Repr, Inhabited

namespace Part

/-- The name of a part. -/
def name : Part → String
  | .functionHeader => "function header"
  | .functionName => "function name"
  | .type => "type"
  | .parameterName => "parameter name"
  | .defaultValue => "default value"
  | .value => "value"
  | .variableName => "variable name"
  | .initialValue => "initial value"
  | .statement => "statement"
  | .assignmentTarget => "assignment target"
  | .assignedValue => "assigned value"
  | .condition => "condition"
  | .expression => "expression"
  | .operator => "operator"

end Part

namespace LowerError

/-- The error as a message. -/
def message : LowerError → String
  | .missing part => "missing " ++ part.name
  | .unexpected text => "unexpected `" ++ text ++ "`"
  | .numberOutOfRange digits => "number `" ++ digits ++ "` does not fit in 64 bits"
  | .tooDeep => "nested more than " ++ toString maxNesting ++ " levels deep"

end LowerError

/-- The result of lowering a node. -/
abbrev Lowered (α : Type) := Except LowerError α

/-- A part that must be there. -/
def require {α : Type} (part : Part) : Option α → Lowered α
  | some a => .ok a
  | none => .error (.missing part)

/-! ## Leaves -/

/-- The span of a node. -/
def spanOf (node : Node) : Span := ⟨node.label.start.bytes, node.label.stop.bytes⟩

/-- The text of a node. -/
def textOf (source : Source) (node : Node) : List Char :=
  source.slice node.label.start node.label.stop

/-- A name, which must be there and not be an invented token. -/
def identifier (source : Source) (part : Part) : Option Node → Lowered (String × Span)
  | some node =>
    if node.isMissing then .error (.missing part)
    else .ok (String.ofList (textOf source node), spanOf node)
  | none => .error (.missing part)

/-- The largest number that fits in 64 bits with a sign. -/
def maxNumber : Nat := 9223372036854775807

/-- The number that digits stand for. -/
def digitsValue (digits : List Char) : Nat :=
  digits.foldl (fun n c => 10 * n + (c.toNat - '0'.toNat)) 0

/-- The value of a number. -/
def numberOf (digits : List Char) : Lowered Nat :=
  if digitsValue digits ≤ maxNumber then .ok (digitsValue digits)
  else .error (.numberOutOfRange (String.ofList digits))

/-- Resolve the escapes of a string: `^` and the character after it stand for a line feed, a tab or
a carriage return if that character is `n`, `t` or `r`, and else for the character itself. -/
def unescape : List Char → List Char
  | [] => []
  | ['^'] => ['^']
  | '^' :: 'n' :: rest => '\n' :: unescape rest
  | '^' :: 't' :: rest => '\t' :: unescape rest
  | '^' :: 'r' :: rest => '\r' :: unescape rest
  | '^' :: c :: rest => c :: unescape rest
  | c :: rest => c :: unescape rest

/-- A text without the quotation mark at its end. -/
def dropClosingQuote (s : List Char) : List Char :=
  match s.reverse with
  | '"' :: rest => rest.reverse
  | _ => s

/-- A text without its quotation marks. -/
def unquote : List Char → List Char
  | '"' :: rest => dropClosingQuote rest
  | s => dropClosingQuote s

/-- The value of a string literal. -/
def stringOf (text : List Char) : String := String.ofList (unescape (unquote text))

/-- A literal. -/
def literal (source : Source) (node : Node) : Lowered Literal :=
  if node.isMissing then .error (.missing .value)
  else
    let text := textOf source node
    match node.kind with
    | .number => (numberOf text).map .number
    | .string => .ok (.string (stringOf text))
    | _ => .error (.unexpected (String.ofList text))

/-- The type that a keyword names. -/
def dataType? : Symbol → Option DataType
  | .kwInt => some .int
  | .kwString => some .string
  | .kwReal => some .real
  | .kwQuality => some .quality
  | .kwTimestamp => some .timestamp
  | .kwBool => some .bool
  | .kwObject => some .object
  | .kwLong => some .long
  | _ => none

/-- The operator on values that a token stands for. -/
def binaryOperator? : Symbol → Option BinaryOperator
  | .plus => some .add
  | .minus => some .subtract
  | .star => some .multiply
  | .slash => some .divide
  | .kwMod => some .mod
  | .kwBitand => some .bitAnd
  | .kwBitor => some .bitOr
  | .kwBitxor => some .bitXor
  | _ => none

/-- The operator on conditions that a token stands for. -/
def conditionOperator? : Symbol → Option ConditionOperator
  | .equal => some .equal
  | .notEqual => some .notEqual
  | .less => some .less
  | .greater => some .greater
  | .lessEqual => some .lessEqual
  | .greaterEqual => some .greaterEqual
  | .kwAnd => some .and
  | .kwOr => some .or
  | _ => none

/-- The operator of a node that holds one, by the token it consists of. -/
def operatorOf {α : Type} (ofToken : Symbol → Option α) (node : Node) : Lowered α := do
  let token ← require .operator ((node.namedChildren.head?).bind (·.firstToken))
  match ofToken token.kind with
  | some operator => .ok operator
  | none => .error (.unexpected token.kind.name)

/-! ## Expressions -/

/-- A function call, given how to lower its arguments. -/
def callWith (source : Source) (argument : Node → Lowered Expr) (node : Node) :
    Lowered (String × List Expr) := do
  let parts := node.significant
  let (function, _) ← identifier source .functionName (parts.find? (·.kind == .functionName))
  let arguments ← (parts.filter (·.kind == .expression)).mapM argument
  return (function, arguments)

/-- An atom of an expression, given how to lower an expression inside it. -/
def atomWith (source : Source) (inner : Node → Lowered Expr) (node : Node) : Lowered Expr := do
  let first ← require .expression node.firstToken
  let operand := require .expression node.significant.head?
  match first.kind with
  | .minus => return .negate (spanOf node) (← inner (← operand))
  | .lparen => return (← inner (← operand)).withSpan (spanOf node)
  | .error => .error (.unexpected (String.ofList (textOf source first)))
  | _ => if first.isMissing then .error (.missing .expression) else inner first

/-- An expression, given how to lower an expression inside it. -/
def expressionWith (source : Source) (inner : Node → Lowered Expr) (node : Node) : Lowered Expr :=
  let unexpected := .error (.unexpected (String.ofList (textOf source node)))
  match node.kind with
  | .expression =>
    match node.significant with
    | [operand] =>
      if operand.kind == .expressionAtom then atomWith source inner operand else inner operand
    | [left, operator, right] => do
      let operator ← operatorOf binaryOperator? operator
      return .binary (spanOf node) operator (← inner left) (← inner right)
    | _ => unexpected
  | .expressionAtom => atomWith source inner node
  | .functionCall => do
    let (function, arguments) ← callWith source inner node
    return .call (spanOf node) function arguments
  | .variableName => do
    let (name, span) ← identifier source .expression (some node)
    return .variable span name
  | .number | .string => do
    match ← literal source node with
    | .number value => return .number (spanOf node) value
    | .string value => return .string (spanOf node) value
  | _ => unexpected

/-- An expression, with a number of levels left. -/
def expression (source : Source) : Nat → Node → Lowered Expr
  | 0, _ => .error .tooDeep
  | levels + 1, node => expressionWith source (expression source levels) node

/-! ## Conditions -/

/-- An atom of a condition, given how to lower what is inside it. -/
def conditionalAtomWith (expr : Node → Lowered Expr) (condition atom : Node → Lowered Condition)
    (node : Node) : Lowered Condition := do
  let first ← require .condition node.firstToken
  let operand ← require .condition node.significant.head?
  match first.kind with
  | .kwNot =>
    let inner ← if operand.kind == .conditionalAtom then atom operand else do
      let value ← expr operand
      pure (.expr value.span value)
    return .not (spanOf node) inner
  | .lparen => return (← condition operand).withSpan (spanOf node)
  | _ => return .expr (spanOf node) (← expr operand)

/-- The innermost of conditions that consist of nothing but another one. -/
def innermost : Nat → Node → Node
  | 0, node => node
  | fuel + 1, node =>
    match node.significant with
    | [operand] => if operand.kind == .conditionalStatement then innermost fuel operand else node
    | _ => node

/-- A condition, given how to lower what is inside it. The operands of an operator are one level
further in. -/
def conditionWith (expr : Node → Lowered Expr) (atom : Node → Lowered Condition)
    (nested : Lowered (Node → Lowered Condition)) (node : Node) : Lowered Condition :=
  let node := innermost node.size node
  match node.significant with
  | [operand] =>
    if operand.kind == .conditionalAtom then atom operand
    else (expr operand).map (.expr (spanOf node))
  | [left, operator, right] => do
    let inner ← nested
    let operator ← operatorOf conditionOperator? operator
    return .binary (spanOf node) operator (← inner left) (← inner right)
  | _ => .error (.missing .condition)

mutual

/-- A condition, with a number of levels left. -/
def condition (source : Source) : Nat → Node → Lowered Condition
  | 0, node =>
    conditionWith (fun _ => .error .tooDeep) (fun _ => .error .tooDeep) (.error .tooDeep) node
  | levels + 1, node =>
    conditionWith (expression source (levels + 1))
      (fun operand => conditionalAtomWith (expression source levels)
        (fun n => condition source levels n) (fun n => conditionalAtom source levels n) operand)
      (.ok fun n => condition source levels n) node

/-- An atom of a condition, with a number of levels left. -/
def conditionalAtom (source : Source) : Nat → Node → Lowered Condition
  | 0, _ => .error .tooDeep
  | levels + 1, node =>
    conditionalAtomWith (expression source levels) (fun n => condition source levels n)
      (fun n => conditionalAtom source levels n) node

end

/-! ## Statements -/

/-- A node that was left out, and why. -/
structure Dropped where
  node : Node
  cause : LowerError
  deriving Inhabited

/-- Statements that could be lowered, and what was left out. -/
abbrev Block := List Statement × List Dropped

/-- The way to lower blocks one level further in. -/
abbrev BlockLowerer := List Node → Lowered Block

/-- An IF statement, given how to lower its condition and its branches. -/
def branchWith (condition : Node → Lowered Condition) (block : BlockLowerer) (span : Span)
    (node : Node) : Lowered (Statement × List Dropped) := do
  let parts := node.children
  let test ← require .condition (parts.find? (·.kind == .conditionalStatement))
  let test ← condition test
  let (before, fromElse) := parts.span (·.kind != .kwElse)
  let (thenPart, dropped) ← block before
  match fromElse with
  | [] => return (.branch span test thenPart none, dropped)
  | _ :: afterElse =>
    let (elsePart, alsoDropped) ← block afterElse
    return (.branch span test thenPart (some elsePart), dropped ++ alsoDropped)

/-- A statement, with a number of levels left for its expressions. -/
def statementWith (source : Source) (levels : Nat) (block : BlockLowerer) (node : Node) :
    Lowered (Statement × List Dropped) := do
  let span := spanOf node
  let inner ← require .statement node.significant.head?
  match inner.kind with
  | .variableAssignment =>
    let parts := inner.significant
    let (target, targetSpan) ←
      identifier source .assignmentTarget (parts.find? (·.kind == .variableName))
    let value ← require .assignedValue
      ((parts.find? (·.kind == .expressionVariableAssignments)).bind (·.significant.head?))
    return (.assign span target targetSpan (← expression source levels value), [])
  | .ifStatement => branchWith (condition source levels) block span inner
  | .functionCall =>
    let (function, arguments) ← callWith source (expression source levels) inner
    return (.call span function arguments, [])
  | _ => .error (.unexpected (String.ofList (textOf source inner)))

/-- A RETURN statement, with a number of levels left for its expression. -/
def returnStatement (source : Source) (levels : Nat) (node : Node) :
    Lowered (Statement × List Dropped) :=
  match node.significant.find? (·.kind == .expression) with
  | none => .ok (.return (spanOf node) none, [])
  | some value =>
    (expression source levels value).map fun value => (.return (spanOf node) (some value), [])

/-- The statements among some nodes, given how to lower blocks further in. -/
def statementsWith (source : Source) (levels : Nat) (block : BlockLowerer) : List Node → Block
  | [] => ([], [])
  | node :: rest =>
    let lowered := match node.kind with
      | .statementOrExpression => some (statementWith source levels block node)
      | .returnStatement => some (returnStatement source levels node)
      | _ => none
    let (statements, dropped) := statementsWith source levels block rest
    match lowered with
    | none => (statements, dropped)
    | some (.ok (statement, inside)) => (statement :: statements, inside ++ dropped)
    | some (.error cause) => (statements, ⟨node, cause⟩ :: dropped)

/-- The statements among some nodes, with a number of levels left. -/
def block (source : Source) : Nat → BlockLowerer
  | 0, _ => .error .tooDeep
  | levels + 1, nodes => .ok (statementsWith source levels (block source levels) nodes)

/-! ## Functions -/

/-- A type, which must be there. -/
def typeOf (node : Option Node) : Lowered DataType :=
  require .type <| ((node.filter (!·.isMissing)).bind (·.firstToken)).bind (dataType? ·.kind)

/-- A parameter. -/
def parameter (source : Source) (node : Node) : Lowered Parameter := do
  let type ← typeOf (node.child? .type)
  let (name, _) ← identifier source .parameterName (node.child? .name)
  let default ← match node.child? .defaultval with
    | none => pure none
    | some given => do
      let value ← require .defaultValue given.significant.head?
      (literal source value).map some
  return { name, type, default, span := spanOf node }

/-- Give the last of some variables, kept in reverse, an initial value. -/
def initializeLast (initializer : Initializer) (valueSpan assignmentSpan : Span) :
    List Variable → List Variable
  | [] => []
  | last :: before =>
    { last with
      initializer := some (initializer, valueSpan)
      span := last.span.merge assignmentSpan } :: before

/-- One step through the parts of a declaration; `before` are the variables so far, in reverse. -/
def declarationPart (source : Source) (before : List Variable) (node : Node) :
    Lowered (List Variable) :=
  match node.kind with
  | .variableName => do
    let (name, span) ← identifier source .variableName (some node)
    return { name, initializer := none, span } :: before
  | .assignToValue => do
    let value ← require .initialValue node.significant.head?
    let initializer ← match value.kind with
      | .variableName => (identifier source .value (some value)).map (.variable ·.1)
      | _ => (literal source value).map .literal
    return initializeLast initializer (spanOf value) (spanOf node) before
  | _ => .ok before

/-- A declaration of local variables. -/
def declaration (source : Source) (node : Node) : Lowered Declaration := do
  let type ← typeOf (node.child? .varType)
  let declared ← node.significant.foldlM (declarationPart source) []
  return { type, declared := declared.reverse, span := spanOf node }

/-- Lower several nodes, leaving out those that cannot be lowered. -/
def lowerAll {α : Type} (lower : Node → Lowered α) : List Node → List α × List Dropped
  | [] => ([], [])
  | node :: rest =>
    let (kept, dropped) := lowerAll lower rest
    match lower node with
    | .ok a => (a :: kept, dropped)
    | .error cause => (kept, ⟨node, cause⟩ :: dropped)

/-- A function with its documentation, and what was left out of it. -/
def function (source : Source) (node : Node) (doc : Option Doc) :
    Lowered (Function × List Dropped) := do
  let parts := node.significant
  let header ← require .functionHeader (parts.find? (·.kind == .functionDefinition))
  let (name, nameSpan) ← identifier source .functionName (header.child? .name)
  let scope := match ((header.child? .scope).bind (·.firstToken)).map (·.kind) with
    | some .kwPrivate => Scope.private
    | _ => Scope.public
  let typeToken := (header.child? .returnType).bind (·.firstToken)
  let returnType := match typeToken.bind (dataType? ·.kind) with
    | some type => ReturnType.value type
    | none => ReturnType.void
  let listed := ((header.child? .parameters).map (·.significant)).getD []
  let (parameters, lostParameters) := lowerAll (parameter source) listed
  let (locals, lostLocals) :=
    lowerAll (declaration source) (parts.filter (·.kind == .variableDeclaration))
  let (body, lostStatements) ← block source maxNesting parts
  return ({ name, nameSpan, scope, returnType, parameters, locals, body, doc, span := spanOf node },
    lostParameters ++ lostLocals ++ lostStatements)

/-! ## Programs -/

/-- The text inside a documentation tag. -/
def docContent (source : Source) (node : Node) : String :=
  let bodies : List Symbol := [.summaryContent, .paramContent, .returnsContent]
  match node.significant.find? fun child => bodies.contains child.kind with
  | some content => String.ofList (textOf source content)
  | none => ""

/-- The functions among some top-level nodes, and what was left out. `doc` is what has been said
since the last node that is neither documentation nor a comment. -/
def functionsFrom (source : Source) (doc : Doc) : List Node → List Function × List Dropped
  | [] => ([], [])
  | node :: rest =>
    match node.kind with
    | .docSummary => functionsFrom source (doc.addSummary (docContent source node)) rest
    | .docReturns => functionsFrom source (doc.addReturns (docContent source node)) rest
    | .docParam =>
      match node.significant.find? (·.kind == .paramTag) with
      | none => functionsFrom source doc rest
      | some tag =>
        let tagText := String.ofList (textOf source tag)
        functionsFrom source (doc.addParam tagText (docContent source node) (spanOf tag)) rest
    | .function =>
      let (functions, dropped) := functionsFrom source {} rest
      match function source node (if doc.isEmpty then none else some doc) with
      | .ok (function, inside) => (function :: functions, inside ++ dropped)
      | .error cause => (functions, ⟨node, cause⟩ :: dropped)
    | _ => functionsFrom source {} rest

/-- The report about a node that was left out, if its fault is not a syntax problem. -/
def Dropped.report? (dropped : Dropped) : Option Diagnostic :=
  if dropped.node.hasError then none
  else some { message := dropped.cause.message, span := spanOf dropped.node, severity := .error,
              phase := .lowering }

/-- The report about a syntax problem. -/
def reportProblem (problem : Problem) : Diagnostic :=
  { message := problem.message, span := ⟨problem.start.bytes, problem.stop.bytes⟩,
    severity := .error, phase := .parsing }

/-- The functions of a syntax tree, and what was left out. -/
def lower (source : Source) (root : Node) : List Function × List Dropped :=
  functionsFrom source {} root.significant

/-- Parse and lower a text. The diagnostics are those of parsing, then those of lowering, each in
the order of the text. -/
def parse (text : String) : List Function × List Diagnostic :=
  let source := Source.ofList text.toList
  let root := Node.parse text.toList
  let (functions, dropped) := lower source root
  (functions, (Problem.list source root).map reportProblem ++ dropped.filterMap (·.report?))

end Cicode.Program
