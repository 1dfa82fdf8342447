import Mathlib
import Cicode.Grammar.Symbol

/-!
# The rules of the language

The grammar gives every nonterminal a *rule*, a regular expression over symbols.  A *derivation* is
a tree in which the symbols of the children of every inner node match the rule of the node; its
*yield* is the row of its leaves.  A word is derivable from a symbol if it is the yield of a
derivation of the symbol.

The rules alone are ambiguous: `a + b * c` has two derivations, and `(a)` inside a condition is a
condition in parentheses or an expression.  A derivation is *resolved* if every operator binds as
its strength says (the bit operators least, then `+ -`, then `* / MOD`; for conditions OR least,
then AND, then the comparisons), operators of one strength group to the left, and a condition in
parentheses is used as an operand only where the parentheses hold more than an expression.
-/

namespace Cicode.Grammar

/-- The right-hand side of a rule.  A repetition carries the hidden symbol by which the parsing
table refers to it; the symbol plays no part in what the rule matches. -/
inductive Rule where
  /-- Nothing at all. -/
  | never
  /-- The empty row. -/
  | empty
  /-- One symbol. -/
  | symbol (symbol : Symbol)
  /-- One rule after the other. -/
  | seq (first second : Rule)
  /-- One of two rules. -/
  | choice (first second : Rule)
  /-- A rule any number of times. -/
  | many (hidden : Symbol) (rule : Rule)
  deriving DecidableEq, Repr, Inhabited

namespace Rule

/-- The rows of symbols that a rule matches. -/
inductive Matches : Rule → List Symbol → Prop
  | empty : Matches .empty []
  | symbol (s : Symbol) : Matches (.symbol s) [s]
  | seq {a b : Rule} {xs ys : List Symbol} :
      Matches a xs → Matches b ys → Matches (.seq a b) (xs ++ ys)
  | first {a b : Rule} {xs : List Symbol} : Matches a xs → Matches (.choice a b) xs
  | second {a b : Rule} {xs : List Symbol} : Matches b xs → Matches (.choice a b) xs
  | done {h : Symbol} {r : Rule} : Matches (.many h r) []
  | more {h : Symbol} {r : Rule} {xs ys : List Symbol} :
      Matches r xs → Matches (.many h r) ys → Matches (.many h r) (xs ++ ys)

/-- Rules one after the other. -/
def seqOf (rules : List Rule) : Rule := rules.foldr .seq .empty

/-- One of some rules. -/
def oneOf (rules : List Rule) : Rule := rules.foldr .choice .never

/-- A fixed row of symbols. -/
def row (symbols : List Symbol) : Rule := seqOf (symbols.map .symbol)

/-- One of some symbols. -/
def anyOf (symbols : List Symbol) : Rule := oneOf (symbols.map .symbol)

/-- A rule or nothing. -/
def optional (rule : Rule) : Rule := .choice rule .empty

/-- A rule once or more, with commas in between. -/
def commaSeparated (hidden : Symbol) (rule : Rule) : Rule :=
  .seq rule (.many hidden (.seq (.symbol .comma) rule))

end Rule

open Rule in
/-- The rule of each nonterminal.  The hidden symbols of repetitions have none, nor do terminals. -/
def rule : Symbol → Option Rule
  | .sourceFile => some (.many .topLevelItems (anyOf [.function, .docComment]))
  | .docComment => some (anyOf [.docSummary, .docParam, .docReturns])
  | .docSummary =>
    some (seqOf [.symbol .summaryStart, optional (.symbol .summaryContent), .symbol .summaryEnd])
  | .docParam =>
    some (seqOf [.symbol .paramTag, optional (.symbol .paramContent), .symbol .paramEnd])
  | .docReturns =>
    some (seqOf [.symbol .returnsStart, optional (.symbol .returnsContent), .symbol .returnsEnd])
  | .function =>
    some (seqOf [.symbol .functionDefinition,
      .many .declarations (.symbol .variableDeclaration),
      .many .bodyStatements (.symbol .bodyStatement), .symbol .kwEnd])
  | .functionDefinition =>
    some (seqOf [optional (.symbol .functionScope), optional (.symbol .functionTypes),
      .symbol .kwFunction, .symbol .identifier, .symbol .lparen,
      optional (.symbol .functionParameters), .symbol .rparen, .symbol .lineFeed])
  | .functionScope => some (anyOf [.kwPublic, .kwPrivate])
  | .type =>
    some (anyOf [.kwInt, .kwString, .kwReal, .kwQuality, .kwTimestamp, .kwBool, .kwObject, .kwLong])
  | .functionTypes => some (anyOf [.type, .kwVoid])
  | .parameterType => some (.symbol .type)
  | .variableType => some (.symbol .type)
  | .functionParameters => some (commaSeparated .furtherParameters (.symbol .functionParameter))
  | .functionParameter =>
    some (seqOf [.symbol .parameterType, .symbol .identifier, optional (.symbol .defaultValue)])
  | .defaultValue => some (seqOf [.symbol .equal, anyOf [.number, .string]])
  | .variableDeclaration =>
    some (seqOf [.symbol .variableType,
      commaSeparated .furtherVariables
        (seqOf [.symbol .identifier, optional (.symbol .assignToValue)]),
      .symbol .semicolon])
  | .assignToValue => some (seqOf [.symbol .equal, anyOf [.number, .string, .identifier]])
  | .bodyStatement => some (anyOf [.statementOrExpression, .returnStatement])
  | .statementOrExpression =>
    some (oneOf [.symbol .variableAssignment, .symbol .ifStatement, row [.functionCall, .semicolon]])
  | .variableAssignment =>
    some (row [.identifier, .equal, .expressionVariableAssignments, .semicolon])
  | .expressionVariableAssignments => some (.symbol .expression)
  | .ifStatement =>
    some (seqOf [.symbol .kwIf, .symbol .conditionalStatement, .symbol .kwThen,
      .many .branchStatements (.symbol .bodyStatement),
      optional (.seq (.symbol .kwElse) (.many .branchStatements (.symbol .bodyStatement))),
      .symbol .kwEnd])
  | .returnStatement =>
    some (seqOf [.symbol .kwReturn, optional (.symbol .expression), .symbol .semicolon])
  | .expression =>
    some (oneOf [.symbol .expressionAtom, row [.expression, .bitOperator, .expression],
      row [.expression, .additiveOperator, .expression],
      row [.expression, .multiplicativeOperator, .expression]])
  | .bitOperator => some (.symbol .bitOperators)
  | .additiveOperator => some (.symbol .additiveSymbol)
  | .multiplicativeOperator => some (.symbol .multiplicativeSymbol)
  | .additiveSymbol => some (anyOf [.plus, .minus])
  | .multiplicativeSymbol => some (anyOf [.star, .slash, .kwMod])
  | .bitOperators => some (anyOf [.kwBitand, .kwBitor, .kwBitxor])
  | .expressionAtom =>
    some (oneOf [.symbol .identifier, .symbol .string, .symbol .number,
      row [.lparen, .expression, .rparen], row [.minus, .expressionAtom], .symbol .functionCall])
  | .functionCall =>
    some (seqOf [.symbol .identifier, .symbol .lparen,
      optional (commaSeparated .furtherArguments (.symbol .expression)), .symbol .rparen])
  | .conditionalStatement =>
    some (oneOf [.symbol .expression, .symbol .conditionalGroup,
      row [.conditionalStatement, .orOperator, .conditionalStatement],
      row [.conditionalStatement, .andOperator, .conditionalStatement],
      row [.conditionalStatement, .relationalOperator, .conditionalStatement]])
  | .orOperator => some (.symbol .orKeyword)
  | .andOperator => some (.symbol .andKeyword)
  | .orKeyword => some (.symbol .kwOr)
  | .andKeyword => some (.symbol .kwAnd)
  | .relationalOperator => some (.symbol .relationalOperators)
  | .relationalOperators =>
    some (anyOf [.equal, .notEqual, .less, .greater, .lessEqual, .greaterEqual])
  | .conditionalGroup =>
    some (oneOf [row [.lparen, .conditionalStatement, .rparen], row [.kwNot, .conditionalAtom]])
  | .conditionalAtom =>
    some (oneOf [.symbol .identifier, .symbol .functionCall,
      row [.lparen, .conditionalStatement, .rparen], row [.kwNot, .conditionalAtom]])
  | _ => none

/-! ## Derivations -/

/-- A tree of symbols whose leaves carry tokens. -/
inductive Derivation (α : Type) where
  /-- A terminal. -/
  | leaf (symbol : Symbol) (token : α)
  /-- A nonterminal with what it consists of. -/
  | node (symbol : Symbol) (children : List (Derivation α))
  deriving Inhabited

namespace Derivation

variable {α : Type}

/-- The symbol at the root. -/
def symbol : Derivation α → Symbol
  | .leaf symbol _ => symbol
  | .node symbol _ => symbol

/-- The trees directly below the root. -/
def children : Derivation α → List (Derivation α)
  | .leaf _ _ => []
  | .node _ children => children

mutual

/-- The leaves of a tree, each with its token. -/
def yield : Derivation α → List (Symbol × α)
  | .leaf symbol token => [(symbol, token)]
  | .node _ children => yieldAll children

/-- The leaves of several trees. -/
def yieldAll : List (Derivation α) → List (Symbol × α)
  | [] => []
  | first :: rest => yield first ++ yieldAll rest

end

mutual

/-- The tree follows the rules: its leaves are terminals, and the children of every inner node
match the rule of its symbol. -/
def FollowsRules : Derivation α → Prop
  | .leaf symbol _ => symbol.isTerminal
  | .node symbol children =>
    (∃ r, rule symbol = some r ∧ r.Matches (children.map Derivation.symbol)) ∧
      AllFollowRules children

/-- Several trees follow the rules. -/
def AllFollowRules : List (Derivation α) → Prop
  | [] => True
  | first :: rest => FollowsRules first ∧ AllFollowRules rest

end

/-- The tree is a derivation of the symbol with the given yield. -/
structure Derives (symbol : Symbol) (word : List (Symbol × α)) (tree : Derivation α) : Prop where
  follows : tree.FollowsRules
  symbol_eq : tree.symbol = symbol
  yield_eq : tree.yield = word

end Derivation

/-! ## Resolved derivations -/

/-- How strongly an operator binds. -/
def operatorStrength : Symbol → Option Nat
  | .bitOperator | .orOperator => some 1
  | .additiveOperator | .andOperator => some 2
  | .multiplicativeOperator | .relationalOperator => some 3
  | _ => none

/-- The strength of what is no operation: it holds together more strongly than any operator. -/
def atomStrength : Nat := 4

namespace Derivation

variable {α : Type}

/-- How strongly a tree holds together: as its operator says, if it is an operation. -/
def strength : Derivation α → Nat
  | .node _ [_, operator, _] => (operatorStrength operator.symbol).getD atomStrength
  | _ => atomStrength

/-- The operands of an operation hold together at least as strongly as the operator binds, the
right one more strongly, so that operations of one strength group to the left. -/
def OperandsHold : List (Derivation α) → Prop
  | [left, operator, right] =>
    ∀ q, operatorStrength operator.symbol = some q → q ≤ left.strength ∧ q < right.strength
  | _ => True

/-- A condition in parentheses that is an operand is more than an expression. -/
def GroupsCondition (symbol : Symbol) (children : List (Derivation α)) : Prop :=
  symbol = .conditionalGroup →
    ∀ condition ∈ children, condition.children.map Derivation.symbol ≠ [.expression]

mutual

/-- Every ambiguity is resolved as the strengths of the operators say. -/
def Resolved : Derivation α → Prop
  | .leaf _ _ => True
  | .node symbol children =>
    OperandsHold children ∧ GroupsCondition symbol children ∧ AllResolved children

/-- Several trees are resolved. -/
def AllResolved : List (Derivation α) → Prop
  | [] => True
  | first :: rest => Resolved first ∧ AllResolved rest

end

end Derivation

end Cicode.Grammar
