import Mathlib
import Cicode.Program.Lower

/-!
# Printing programs

A program is printed as a row of words with a blank before each of them and one at the end.  An operand
stands in parentheses where it binds less strongly than its place asks for; `NOT` is written before a
variable, a call or another `NOT`, and else before a condition in parentheses.  In strings `^` stands
before a quotation mark and before `^` itself, and `^n` is a line feed.

Printing forgets where a program was read from (`Function.unplaced`).  A program can be printed if
its names are words that are no keywords, its numbers are in range and its strings hold no NUL
character, and if lowering has enough levels for it (`Function.Printable`).
-/

namespace Cicode.Program

open Text Grammar

/-- A word of a printed program. -/
abbrev Word := List Char

/-! ## Literals and operators -/

/-- The characters of a string between its quotation marks. -/
def escape : List Char → List Char
  | [] => []
  | '\n' :: rest => '^' :: 'n' :: escape rest
  | '"' :: rest => '^' :: '"' :: escape rest
  | '^' :: rest => '^' :: '^' :: escape rest
  | c :: rest => c :: escape rest

/-- A string with its quotation marks. -/
def quoted (value : String) : Word := '"' :: escape value.toList ++ ['"']

/-- The digits of a number. -/
def digits (value : Nat) : Word := Nat.toDigits 10 value

/-- The word of a literal. -/
def Literal.word : Literal → Word
  | .number value => digits value
  | .string value => quoted value

/-- The word of an initial value. -/
def Initializer.word : Initializer → Word
  | .literal value => value.word
  | .variable name => name.toList

/-- How strongly an operator on values binds. -/
def BinaryOperator.strength : BinaryOperator → Nat
  | .bitAnd | .bitOr | .bitXor => 1
  | .add | .subtract => 2
  | .multiply | .divide | .mod => 3

/-- How strongly an operator on conditions binds. -/
def ConditionOperator.strength : ConditionOperator → Nat
  | .or => 1
  | .and => 2
  | .equal | .notEqual | .less | .greater | .lessEqual | .greaterEqual => 3

/-- The strength of what is no operation. -/
def atomic : Nat := 4

/-! ## Words -/

/-- Words in parentheses. -/
def inParentheses (words : List Word) : List Word := "(".toList :: words ++ [")".toList]

/-- Items with commas in between. -/
def separated : List (List Word) → List Word
  | [] => []
  | first :: rest => first ++ rest.flatMap fun item => ",".toList :: item

/-- An operation, in parentheses if it binds less strongly than asked for. -/
def operationWords (strength level : Nat) (left : List Word) (operator : String)
    (right : List Word) : List Word :=
  let words := left ++ operator.toList :: right
  if strength < level then inParentheses words else words

/-- A call, given the words of its arguments. -/
def callWords (function : String) (arguments : List (List Word)) : List Word :=
  function.toList :: inParentheses (separated arguments)

mutual

/-- An expression at a place that asks for some strength. -/
def Expr.words (level : Nat) : Expr → List Word
  | .number _ value => [digits value]
  | .string _ value => [quoted value]
  | .variable _ name => [name.toList]
  | .negate _ operand => "-".toList :: operand.words atomic
  | .binary _ operator left right =>
    operationWords operator.strength level (left.words operator.strength) operator.text
      (right.words (operator.strength + 1))
  | .call _ function arguments => callWords function (Expr.wordsEach arguments)

/-- Each of some expressions. -/
def Expr.wordsEach : List Expr → List (List Word)
  | [] => []
  | first :: rest => first.words 1 :: Expr.wordsEach rest

end

mutual

/-- A condition at a place that asks for some strength. -/
def Condition.words (level : Nat) : Condition → List Word
  | .expr _ value => value.words 1
  | .not _ operand => "NOT".toList :: operand.operandWords
  | .binary _ operator left right =>
    operationWords operator.strength level (left.words operator.strength) operator.text
      (right.words (operator.strength + 1))

/-- A condition after `NOT`. -/
def Condition.operandWords : Condition → List Word
  | .expr _ (.variable _ name) => [name.toList]
  | .expr _ (.call _ function arguments) => callWords function (Expr.wordsEach arguments)
  | .expr _ value => inParentheses (value.words 1)
  | .not _ operand => "NOT".toList :: operand.operandWords
  | .binary _ operator left right =>
    inParentheses (left.words operator.strength ++
      operator.text.toList :: right.words (operator.strength + 1))

end

mutual

/-- A statement. -/
def Statement.words : Statement → List Word
  | .assign _ target _ value => target.toList :: "=".toList :: value.words 1 ++ [";".toList]
  | .call _ function arguments => callWords function (Expr.wordsEach arguments) ++ [";".toList]
  | .branch _ condition thenPart elsePart =>
    "IF".toList :: condition.words 1 ++ "THEN".toList :: Statement.wordsAll thenPart ++
      Statement.wordsElse elsePart ++ ["END".toList]
  | .return _ none => ["RETURN".toList, ";".toList]
  | .return _ (some value) => "RETURN".toList :: value.words 1 ++ [";".toList]

/-- The statements of a block. -/
def Statement.wordsAll : List Statement → List Word
  | [] => []
  | first :: rest => first.words ++ Statement.wordsAll rest

/-- The branch after `ELSE`, if there is one. -/
def Statement.wordsElse : Option (List Statement) → List Word
  | none => []
  | some block => "ELSE".toList :: Statement.wordsAll block

end

/-- A parameter. -/
def Parameter.words (parameter : Parameter) : List Word :=
  [parameter.type.keyword.toList, parameter.name.toList] ++ match parameter.default with
    | none => []
    | some value => ["=".toList, value.word]

/-- A variable. -/
def Variable.words (declared : Variable) : List Word :=
  declared.name.toList :: match declared.initializer with
    | none => []
    | some (value, _) => ["=".toList, value.word]

/-- A declaration. -/
def Declaration.words (declaration : Declaration) : List Word :=
  declaration.type.keyword.toList :: separated (declaration.declared.map Variable.words) ++
    [";".toList]

/-- A function.  A line feed ends its header. -/
def Function.words (function : Function) : List Word :=
  [function.scope.keyword.toList, function.returnType.keyword.toList, "FUNCTION".toList,
    function.name.toList] ++ inParentheses (separated (function.parameters.map Parameter.words)) ++
    ["\n".toList] ++ function.locals.flatMap Declaration.words ++
    Statement.wordsAll function.body ++ ["END".toList]

/-- Words with a blank before each of them and one at the end. -/
def render (words : List Word) : List Char := words.flatMap (' ' :: ·) ++ [' ']

/-- The text of a program. -/
def print (program : List Function) : String :=
  String.ofList (render (program.flatMap Function.words))

/-! ## Programs without places -/

/-- The span that stands for any other one. -/
def nowhere : Span := ⟨0, 0⟩

mutual

/-- An expression without the places it was read from. -/
def Expr.unplaced : Expr → Expr
  | .number _ value => .number nowhere value
  | .string _ value => .string nowhere value
  | .variable _ name => .variable nowhere name
  | .negate _ operand => .negate nowhere operand.unplaced
  | .binary _ operator left right => .binary nowhere operator left.unplaced right.unplaced
  | .call _ function arguments => .call nowhere function (Expr.unplacedEach arguments)

/-- Each of some expressions. -/
def Expr.unplacedEach : List Expr → List Expr
  | [] => []
  | first :: rest => first.unplaced :: Expr.unplacedEach rest

end

/-- A condition without the places it was read from. -/
def Condition.unplaced : Condition → Condition
  | .expr _ value => .expr nowhere value.unplaced
  | .not _ operand => .not nowhere operand.unplaced
  | .binary _ operator left right => .binary nowhere operator left.unplaced right.unplaced

mutual

/-- A statement without the places it was read from. -/
def Statement.unplaced : Statement → Statement
  | .assign _ target _ value => .assign nowhere target nowhere value.unplaced
  | .call _ function arguments => .call nowhere function (Expr.unplacedEach arguments)
  | .branch _ condition thenPart elsePart =>
    .branch nowhere condition.unplaced (Statement.unplacedAll thenPart)
      (Statement.unplacedElse elsePart)
  | .return _ value => .return nowhere (value.map Expr.unplaced)

/-- The statements of a block. -/
def Statement.unplacedAll : List Statement → List Statement
  | [] => []
  | first :: rest => first.unplaced :: Statement.unplacedAll rest

/-- The branch after `ELSE`, if there is one. -/
def Statement.unplacedElse : Option (List Statement) → Option (List Statement)
  | none => none
  | some block => some (Statement.unplacedAll block)

end

/-- A parameter without its place. -/
def Parameter.unplaced (parameter : Parameter) : Parameter := { parameter with span := nowhere }

/-- A variable without its place. -/
def Variable.unplaced (declared : Variable) : Variable :=
  { declared with initializer := declared.initializer.map ((·.1, nowhere)), span := nowhere }

/-- A declaration without its place. -/
def Declaration.unplaced (declaration : Declaration) : Declaration :=
  { declaration with declared := declaration.declared.map Variable.unplaced, span := nowhere }

/-- A function without the places it was read from. -/
def Function.unplaced (function : Function) : Function :=
  { function with
    nameSpan := nowhere
    parameters := function.parameters.map Parameter.unplaced
    locals := function.locals.map Declaration.unplaced
    body := Statement.unplacedAll function.body
    span := nowhere }

/-! ## Nesting -/

/-- The levels of an operation, one more if it stands in parentheses. -/
def operationNesting (strength level left right : Nat) : Nat :=
  max left right + if strength < level then 2 else 1

mutual

/-- How many levels lowering spends on an expression at a place that asks for some strength. -/
def Expr.nesting (level : Nat) : Expr → Nat
  | .number _ _ | .string _ _ | .variable _ _ => 2
  | .negate _ operand => operand.nesting atomic + 1
  | .binary _ operator left right =>
    operationNesting operator.strength level (left.nesting operator.strength)
      (right.nesting (operator.strength + 1))
  | .call _ _ arguments => Expr.nestingEach arguments + 2

/-- The levels of some expressions side by side. -/
def Expr.nestingEach : List Expr → Nat
  | [] => 0
  | first :: rest => max (first.nesting 1) (Expr.nestingEach rest)

end

mutual

/-- How many levels lowering spends on a condition at a place that asks for some strength. -/
def Condition.nesting (level : Nat) : Condition → Nat
  | .expr _ value => value.nesting 1
  | .not _ operand => operand.operandNesting + 1
  | .binary _ operator left right =>
    operationNesting operator.strength level (left.nesting operator.strength)
      (right.nesting (operator.strength + 1))

/-- The levels of a condition after `NOT`. -/
def Condition.operandNesting : Condition → Nat
  | .expr _ (.variable _ _) => 2
  | .expr _ (.call _ _ arguments) => Expr.nestingEach arguments + 2
  | .expr _ value => value.nesting 1 + 1
  | .not _ operand => operand.operandNesting + 1
  | .binary _ operator left right =>
    operationNesting operator.strength atomic (left.nesting operator.strength)
      (right.nesting (operator.strength + 1))

end

mutual

/-- How many levels lowering spends on a statement. -/
def Statement.nesting : Statement → Nat
  | .assign _ _ _ value => value.nesting 1
  | .call _ _ arguments => Expr.nestingEach arguments
  | .branch _ condition thenPart elsePart =>
    max (condition.nesting 1) (max (Statement.nestingAll thenPart + 1) (Statement.nestingElse elsePart))
  | .return _ none => 0
  | .return _ (some value) => value.nesting 1

/-- The levels of some statements side by side. -/
def Statement.nestingAll : List Statement → Nat
  | [] => 0
  | first :: rest => max first.nesting (Statement.nestingAll rest)

/-- The levels of the branch after `ELSE`. -/
def Statement.nestingElse : Option (List Statement) → Nat
  | none => 0
  | some block => Statement.nestingAll block + 1

end

/-- How many levels lowering spends on a function. -/
def Function.nesting (function : Function) : Nat := Statement.nestingAll function.body + 1

end Cicode.Program
