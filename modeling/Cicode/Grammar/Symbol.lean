/-!
# Symbols of the Cicode grammar

The terminals, the nonterminals and the names that a production may give to a child. A symbol has
a number (its place in the list), a name, and two marks: a *visible* symbol becomes a node of the
syntax tree, a *named* one is a grammar rule and not a piece of punctuation or a keyword. The last
two symbols do not belong to the grammar: they stand for text that recovery had to skip.
-/

namespace Cicode

/-- A grammar symbol. The first fifty-three are terminals, the next forty-eight nonterminals, the
next seven the names that productions give to some of their children. -/
inductive Symbol where
  | endOfInput | identifier | summaryStart | summaryEnd | paramTag | paramEnd
  | returnsStart | returnsEnd | lparen | rparen | lineFeed | comma | equal | number
  | string | semicolon | plus | minus | star | slash | notEqual | less | greater
  | lessEqual | greaterEqual | comment | kwEnd | kwFunction | kwPublic | kwPrivate
  | kwInt | kwString | kwReal | kwQuality | kwTimestamp | kwBool | kwObject | kwLong
  | kwVoid | kwIf | kwThen | kwElse | kwReturn | kwMod | kwBitand | kwBitor | kwBitxor
  | kwOr | kwAnd | kwNot | summaryContent | paramContent | returnsContent
  | sourceFile | docComment | docSummary | docParam | docReturns | function
  | functionDefinition | functionScope | type | functionTypes | parameterType
  | variableType | functionParameters | functionParameter | defaultValue
  | variableDeclaration | assignToValue | bodyStatement | statementOrExpression
  | variableAssignment | expressionVariableAssignments | ifStatement | returnStatement
  | expression | bitOperator | additiveOperator | multiplicativeOperator | additiveSymbol
  | multiplicativeSymbol | bitOperators | expressionAtom | functionCall
  | conditionalStatement | orOperator | andOperator | orKeyword | andKeyword
  | relationalOperator | relationalOperators | conditionalGroup | conditionalAtom
  | topLevelItems | declarations | bodyStatements | furtherParameters | furtherVariables
  | branchStatements | furtherArguments
  | functionName | parameterName | variableName | operatorsUsedInStatements
  | mathematicalOperators | operatorsUsedInConditionals | logicalOperators
  | error | errorRepeat
  deriving DecidableEq, Repr, Inhabited

namespace Symbol

/-- The terminals, in the order of their numbers. -/
def terminals : List Symbol :=
  [
    .endOfInput, .identifier, .summaryStart, .summaryEnd, .paramTag, .paramEnd, .returnsStart,
    .returnsEnd, .lparen, .rparen, .lineFeed, .comma, .equal, .number, .string, .semicolon,
    .plus, .minus, .star, .slash, .notEqual, .less, .greater, .lessEqual, .greaterEqual,
    .comment, .kwEnd, .kwFunction, .kwPublic, .kwPrivate, .kwInt, .kwString, .kwReal,
    .kwQuality, .kwTimestamp, .kwBool, .kwObject, .kwLong, .kwVoid, .kwIf, .kwThen, .kwElse,
    .kwReturn, .kwMod, .kwBitand, .kwBitor, .kwBitxor, .kwOr, .kwAnd, .kwNot, .summaryContent,
    .paramContent, .returnsContent ]

/-- The nonterminals, in the order of their numbers. -/
def nonterminals : List Symbol :=
  [
    .sourceFile, .docComment, .docSummary, .docParam, .docReturns, .function,
    .functionDefinition, .functionScope, .type, .functionTypes, .parameterType, .variableType,
    .functionParameters, .functionParameter, .defaultValue, .variableDeclaration,
    .assignToValue, .bodyStatement, .statementOrExpression, .variableAssignment,
    .expressionVariableAssignments, .ifStatement, .returnStatement, .expression, .bitOperator,
    .additiveOperator, .multiplicativeOperator, .additiveSymbol, .multiplicativeSymbol,
    .bitOperators, .expressionAtom, .functionCall, .conditionalStatement, .orOperator,
    .andOperator, .orKeyword, .andKeyword, .relationalOperator, .relationalOperators,
    .conditionalGroup, .conditionalAtom, .topLevelItems, .declarations, .bodyStatements,
    .furtherParameters, .furtherVariables, .branchStatements, .furtherArguments ]

/-- The names that productions give to children, in the order of their numbers. -/
def childNames : List Symbol :=
  [
    .functionName, .parameterName, .variableName, .operatorsUsedInStatements,
    .mathematicalOperators, .operatorsUsedInConditionals, .logicalOperators ]

/-- The symbols of the grammar, in the order of their numbers. -/
def all : List Symbol := terminals ++ nonterminals ++ childNames

/-- The place of a symbol in the grammar's list of symbols. -/
def index (s : Symbol) : Nat := s.ctorIdx

/-- The number of terminals, which is the index of the first nonterminal. -/
def terminalCount : Nat := 53

/-- A terminal is what the lexer delivers. -/
def isTerminal (s : Symbol) : Bool := s.index < terminalCount

/-- The two symbols that stand for skipped text. -/
def isSkipped (s : Symbol) : Bool := s == .error || s == .errorRepeat

/-- The name of a symbol, as shown for a node of its kind. -/
def name : Symbol → String
  | .endOfInput => "end"
  | .identifier => "identifier"
  | .summaryStart => "_summary_start"
  | .summaryEnd => "_summary_end"
  | .paramTag => "param_tag"
  | .paramEnd => "_param_end"
  | .returnsStart => "_returns_start"
  | .returnsEnd => "_returns_end"
  | .lparen => "("
  | .rparen => ")"
  | .lineFeed => "\n"
  | .comma => ","
  | .equal => "="
  | .number => "number"
  | .string => "string"
  | .semicolon => ";"
  | .plus => "+"
  | .minus => "-"
  | .star => "*"
  | .slash => "/"
  | .notEqual => "<>"
  | .less => "<"
  | .greater => ">"
  | .lessEqual => "<="
  | .greaterEqual => ">="
  | .comment => "comment"
  | .kwEnd => "END"
  | .kwFunction => "FUNCTION"
  | .kwPublic => "PUBLIC"
  | .kwPrivate => "PRIVATE"
  | .kwInt => "INT"
  | .kwString => "STRING"
  | .kwReal => "REAL"
  | .kwQuality => "QUALITY"
  | .kwTimestamp => "TIMESTAMP"
  | .kwBool => "BOOL"
  | .kwObject => "OBJECT"
  | .kwLong => "LONG"
  | .kwVoid => "VOID"
  | .kwIf => "IF"
  | .kwThen => "THEN"
  | .kwElse => "ELSE"
  | .kwReturn => "RETURN"
  | .kwMod => "MOD"
  | .kwBitand => "BITAND"
  | .kwBitor => "BITOR"
  | .kwBitxor => "BITXOR"
  | .kwOr => "OR"
  | .kwAnd => "AND"
  | .kwNot => "NOT"
  | .summaryContent => "summary_content"
  | .paramContent => "param_content"
  | .returnsContent => "returns_content"
  | .sourceFile => "source_file"
  | .docComment => "_doc_comment"
  | .docSummary => "doc_summary"
  | .docParam => "doc_param"
  | .docReturns => "doc_returns"
  | .function => "a_function"
  | .functionDefinition => "function_definition"
  | .functionScope => "function_scope"
  | .type => "_type"
  | .functionTypes => "function_types"
  | .parameterType => "parameter_type"
  | .variableType => "variable_type"
  | .functionParameters => "function_parameters"
  | .functionParameter => "function_parameter"
  | .defaultValue => "default_value"
  | .variableDeclaration => "variable_declaration"
  | .assignToValue => "assign_to_value"
  | .bodyStatement => "_body_statement"
  | .statementOrExpression => "statement_or_expression"
  | .variableAssignment => "variable_assignment"
  | .expressionVariableAssignments => "expression_variable_assignments"
  | .ifStatement => "if_statement"
  | .returnStatement => "return_statment"
  | .expression => "expression"
  | .bitOperator => "_bit_operator"
  | .additiveOperator => "_additive_operator"
  | .multiplicativeOperator => "_multiplicative_operator"
  | .additiveSymbol => "_additive_symbol"
  | .multiplicativeSymbol => "_multiplicative_symbol"
  | .bitOperators => "bit_operators"
  | .expressionAtom => "expression_atom"
  | .functionCall => "function_call"
  | .conditionalStatement => "conditional_statement"
  | .orOperator => "_or_operator"
  | .andOperator => "_and_operator"
  | .orKeyword => "_or_keyword"
  | .andKeyword => "_and_keyword"
  | .relationalOperator => "_relational_operator"
  | .relationalOperators => "relational_operators"
  | .conditionalGroup => "_conditional_group"
  | .conditionalAtom => "conditional_atom"
  | .topLevelItems => "source_file_repeat1"
  | .declarations => "a_function_repeat1"
  | .bodyStatements => "a_function_repeat2"
  | .furtherParameters => "function_parameters_repeat1"
  | .furtherVariables => "variable_declaration_repeat1"
  | .branchStatements => "if_statement_repeat1"
  | .furtherArguments => "function_call_repeat1"
  | .functionName => "function_name"
  | .parameterName => "parameter_name"
  | .variableName => "variable_name"
  | .operatorsUsedInStatements => "operators_used_in_statements"
  | .mathematicalOperators => "mathematical_operators"
  | .operatorsUsedInConditionals => "operators_used_in_conditionals"
  | .logicalOperators => "logical_operators"
  | .error => "ERROR"
  | .errorRepeat => "_ERROR"

/-- The symbols that never become a node of the syntax tree under their own name. -/
def isHidden : Symbol → Bool
  | .endOfInput | .summaryStart | .summaryEnd | .paramEnd | .returnsStart | .returnsEnd
  | .docComment | .type | .bodyStatement | .bitOperator | .additiveOperator
  | .multiplicativeOperator | .additiveSymbol | .multiplicativeSymbol | .orOperator
  | .andOperator | .orKeyword | .andKeyword | .relationalOperator | .conditionalGroup
  | .topLevelItems | .declarations | .bodyStatements | .furtherParameters
  | .furtherVariables | .branchStatements | .furtherArguments | .errorRepeat => true
  | _ => false

/-- A visible symbol becomes a node of the syntax tree. -/
def isVisible (s : Symbol) : Bool := !s.isHidden

/-- Punctuation and keywords, which are tokens without a rule of their own. -/
def isAnonymous : Symbol → Bool
  | .lparen | .rparen | .lineFeed | .comma | .equal | .semicolon | .plus | .minus
  | .star | .slash | .notEqual | .less | .greater | .lessEqual | .greaterEqual | .kwEnd
  | .kwFunction | .kwPublic | .kwPrivate | .kwInt | .kwString | .kwReal | .kwQuality
  | .kwTimestamp | .kwBool | .kwObject | .kwLong | .kwVoid | .kwIf | .kwThen | .kwElse
  | .kwReturn | .kwMod | .kwBitand | .kwBitor | .kwBitxor | .kwOr | .kwAnd | .kwNot
  | .topLevelItems | .declarations | .bodyStatements | .furtherParameters
  | .furtherVariables | .branchStatements | .furtherArguments | .errorRepeat => true
  | _ => false

/-- A named symbol is a rule of the grammar. -/
def isNamed (s : Symbol) : Bool := !s.isAnonymous

end Symbol

end Cicode
