import Cicode.Grammar.Symbol
import Cicode.Text.Span

/-!
# Typed programs

A program is a list of functions. Expressions, conditions and statements carry the span of the
text they were read from. Numbers are those that fit in 64 bits with a sign; the sign itself is an
operator.
-/

namespace Cicode.Program

open Text

/-! ## Words of the language -/

/-- Who may call a function. -/
inductive Scope where
  | «public» | «private»
  deriving DecidableEq, Repr, Inhabited

/-- The types of values. -/
inductive DataType where
  | int | string | real | quality | timestamp | bool | object | long
  deriving DecidableEq, Repr, Inhabited

/-- What a function returns. -/
inductive ReturnType where
  | void
  | value (type : DataType)
  deriving DecidableEq, Repr, Inhabited

/-- The operators on values. -/
inductive BinaryOperator where
  | add | subtract | multiply | divide | mod | bitAnd | bitOr | bitXor
  deriving DecidableEq, Repr, Inhabited

/-- The operators on conditions. -/
inductive ConditionOperator where
  | equal | notEqual | less | greater | lessEqual | greaterEqual | and | or
  deriving DecidableEq, Repr, Inhabited

namespace Scope

/-- The keyword of a scope. -/
def keyword : Scope → String
  | .public => "PUBLIC"
  | .private => "PRIVATE"

end Scope

namespace DataType

/-- All types. -/
def all : List DataType := [.int, .string, .real, .quality, .timestamp, .bool, .object, .long]

/-- The keyword of a type. -/
def keyword : DataType → String
  | .int => "INT"
  | .string => "STRING"
  | .real => "REAL"
  | .quality => "QUALITY"
  | .timestamp => "TIMESTAMP"
  | .bool => "BOOL"
  | .object => "OBJECT"
  | .long => "LONG"

/-- The type of a keyword in capitals. -/
def ofKeyword? (word : String) : Option DataType := all.find? (·.keyword == word)

end DataType

namespace ReturnType

/-- The keyword of a return type. -/
def keyword : ReturnType → String
  | .void => "VOID"
  | .value type => type.keyword

end ReturnType

namespace BinaryOperator

/-- All operators. -/
def all : List BinaryOperator :=
  [.add, .subtract, .multiply, .divide, .mod, .bitAnd, .bitOr, .bitXor]

/-- How an operator is written. -/
def text : BinaryOperator → String
  | .add => "+"
  | .subtract => "-"
  | .multiply => "*"
  | .divide => "/"
  | .mod => "MOD"
  | .bitAnd => "BITAND"
  | .bitOr => "BITOR"
  | .bitXor => "BITXOR"

/-- The operator of a token in capitals. -/
def ofText? (token : String) : Option BinaryOperator := all.find? (·.text == token)

end BinaryOperator

namespace ConditionOperator

/-- All operators. -/
def all : List ConditionOperator :=
  [.equal, .notEqual, .less, .greater, .lessEqual, .greaterEqual, .and, .or]

/-- How an operator is written. -/
def text : ConditionOperator → String
  | .equal => "="
  | .notEqual => "<>"
  | .less => "<"
  | .greater => ">"
  | .lessEqual => "<="
  | .greaterEqual => ">="
  | .and => "AND"
  | .or => "OR"

/-- The operator of a token in capitals. -/
def ofText? (token : String) : Option ConditionOperator := all.find? (·.text == token)

end ConditionOperator

/-! ## Expressions, conditions, statements -/

/-- A literal value. -/
inductive Literal where
  | number (value : Nat)
  | string (value : String)
  deriving DecidableEq, Repr, Inhabited

/-- An expression. -/
inductive Expr where
  | number (span : Span) (value : Nat)
  | string (span : Span) (value : String)
  | variable (span : Span) (name : String)
  | negate (span : Span) (operand : Expr)
  | binary (span : Span) (operator : BinaryOperator) (left right : Expr)
  | call (span : Span) (function : String) (arguments : List Expr)
  deriving Repr, Inhabited

/-- A condition. -/
inductive Condition where
  | expr (span : Span) (value : Expr)
  | not (span : Span) (operand : Condition)
  | binary (span : Span) (operator : ConditionOperator) (left right : Condition)
  deriving Repr, Inhabited

/-- A statement. -/
inductive Statement where
  | assign (span : Span) (target : String) (targetSpan : Span) (value : Expr)
  | call (span : Span) (function : String) (arguments : List Expr)
  | branch (span : Span) (condition : Condition) (thenPart : List Statement)
      (elsePart : Option (List Statement))
  | «return» (span : Span) (value : Option Expr)
  deriving Repr, Inhabited

namespace Expr

/-- The text an expression was read from. -/
def span : Expr → Span
  | .number span _ | .string span _ | .variable span _ | .negate span _ | .binary span _ _ _
  | .call span _ _ => span

/-- The same expression read from a larger piece of text. -/
def withSpan (span : Span) : Expr → Expr
  | .number _ value => .number span value
  | .string _ value => .string span value
  | .variable _ name => .variable span name
  | .negate _ operand => .negate span operand
  | .binary _ operator left right => .binary span operator left right
  | .call _ function arguments => .call span function arguments

end Expr

namespace Condition

/-- The text a condition was read from. -/
def span : Condition → Span
  | .expr span _ | .not span _ | .binary span _ _ _ => span

/-- The same condition read from a larger piece of text. -/
def withSpan (span : Span) : Condition → Condition
  | .expr _ value => .expr span value
  | .not _ operand => .not span operand
  | .binary _ operator left right => .binary span operator left right

end Condition

namespace Statement

/-- The text a statement was read from. -/
def span : Statement → Span
  | .assign span _ _ _ | .call span _ _ | .branch span _ _ _ | .return span _ => span

mutual

/-- A statement followed by those of its branches, at any depth. -/
def walk : Statement → List Statement
  | .branch span condition thenPart elsePart =>
    .branch span condition thenPart elsePart :: (walkAll thenPart ++ walkElse elsePart)
  | .assign span target targetSpan value => [.assign span target targetSpan value]
  | .call span function arguments => [.call span function arguments]
  | .return span value => [.return span value]

/-- The statements of a block with those of their branches, each branch after its statement. -/
def walkAll : List Statement → List Statement
  | [] => []
  | statement :: rest => walk statement ++ walkAll rest

/-- The statements of an optional branch. -/
def walkElse : Option (List Statement) → List Statement
  | none => []
  | some block => walkAll block

end

end Statement

/-! ## Functions -/

/-- A parameter. -/
structure Parameter where
  name : String
  type : DataType
  default : Option Literal
  span : Span
  deriving DecidableEq, Repr, Inhabited

/-- What a variable begins with. -/
inductive Initializer where
  | literal (value : Literal)
  | variable (name : String)
  deriving DecidableEq, Repr, Inhabited

/-- A local variable. -/
structure Variable where
  name : String
  initializer : Option (Initializer × Span)
  span : Span
  deriving DecidableEq, Repr, Inhabited

/-- A declaration of local variables of one type. -/
structure Declaration where
  type : DataType
  declared : List Variable
  span : Span
  deriving DecidableEq, Repr, Inhabited

end Cicode.Program
