import Cicode.Grammar.Production

/-!
# What nodes are made of

For each kind of node: which kinds of children its fields hold, and which kinds of children stand in
no field. Kinds without a rule of their own have neither.
-/

namespace Cicode.Grammar

/-- What may stand in a field, or outside of fields. -/
structure Slot where
  /-- Whether several nodes may stand there. -/
  multiple : Bool
  /-- Whether a node must stand there. -/
  required : Bool
  /-- The kinds of nodes that may stand there. -/
  kinds : List Symbol
  deriving DecidableEq, Repr, Inhabited

/-- What the nodes of a kind are made of. -/
structure NodeType where
  /-- The kind. -/
  kind : Symbol
  /-- The fields; none for a kind that is a single token. -/
  fields : Option (List (Field × Slot)) := none
  /-- The children outside of fields. -/
  children : Option Slot := none
  deriving DecidableEq, Repr, Inhabited

/-- The kinds of nodes that have children. -/
def branchTypes : List NodeType :=
  [
    { kind := .function, fields := some [],
      children := some ⟨true, true,
        [.functionDefinition, .returnStatement, .statementOrExpression, .variableDeclaration]⟩ },
    { kind := .assignToValue, fields := some [],
      children := some ⟨false, true, [.number, .string, .variableName]⟩ },
    { kind := .bitOperators, fields := some [] },
    { kind := .conditionalAtom, fields := some [],
      children := some ⟨false, true,
        [.conditionalAtom, .conditionalStatement, .functionCall, .variableName]⟩ },
    { kind := .conditionalStatement, fields := some [],
      children := some ⟨true, true,
        [.conditionalAtom, .conditionalStatement, .expression, .operatorsUsedInConditionals]⟩ },
    { kind := .defaultValue, fields := some [],
      children := some ⟨false, true, [.number, .string]⟩ },
    { kind := .docParam, fields := some [],
      children := some ⟨true, true, [.paramContent, .paramTag]⟩ },
    { kind := .docReturns, fields := some [],
      children := some ⟨false, false, [.returnsContent]⟩ },
    { kind := .docSummary, fields := some [],
      children := some ⟨false, false, [.summaryContent]⟩ },
    { kind := .expression, fields := some [],
      children := some ⟨true, true, [.expression, .expressionAtom, .operatorsUsedInStatements]⟩ },
    { kind := .expressionAtom, fields := some [],
      children := some ⟨false, true,
        [.expression, .expressionAtom, .functionCall, .number, .string, .variableName]⟩ },
    { kind := .expressionVariableAssignments, fields := some [],
      children := some ⟨false, true, [.expression]⟩ },
    { kind := .functionCall, fields := some [],
      children := some ⟨true, true, [.expression, .functionName]⟩ },
    { kind := .functionDefinition, fields := some [
        (.name, ⟨false, true, [.functionName]⟩),
        (.parameters, ⟨false, false, [.functionParameters]⟩),
        (.returnType, ⟨false, false, [.functionTypes]⟩),
        (.scope, ⟨false, false, [.functionScope]⟩)] },
    { kind := .functionParameter, fields := some [
        (.defaultval, ⟨false, false, [.defaultValue]⟩),
        (.name, ⟨false, true, [.parameterName]⟩),
        (.type, ⟨false, true, [.parameterType]⟩)] },
    { kind := .functionParameters, fields := some [],
      children := some ⟨true, true, [.functionParameter]⟩ },
    { kind := .functionScope, fields := some [] },
    { kind := .functionTypes, fields := some [] },
    { kind := .ifStatement, fields := some [],
      children := some ⟨true, true,
        [.conditionalStatement, .returnStatement, .statementOrExpression]⟩ },
    { kind := .logicalOperators, fields := some [] },
    { kind := .mathematicalOperators, fields := some [] },
    { kind := .operatorsUsedInConditionals, fields := some [],
      children := some ⟨false, true, [.logicalOperators, .relationalOperators]⟩ },
    { kind := .operatorsUsedInStatements, fields := some [],
      children := some ⟨false, true, [.bitOperators, .mathematicalOperators]⟩ },
    { kind := .parameterType, fields := some [] },
    { kind := .relationalOperators, fields := some [] },
    { kind := .returnStatement, fields := some [],
      children := some ⟨false, false, [.expression]⟩ },
    { kind := .sourceFile, fields := some [],
      children := some ⟨true, false, [.function, .docParam, .docReturns, .docSummary]⟩ },
    { kind := .statementOrExpression, fields := some [],
      children := some ⟨false, true, [.functionCall, .ifStatement, .variableAssignment]⟩ },
    { kind := .variableAssignment, fields := some [],
      children := some ⟨true, true, [.expressionVariableAssignments, .variableName]⟩ },
    { kind := .variableDeclaration, fields := some [
        (.varType, ⟨false, true, [.variableType]⟩)],
      children := some ⟨true, true, [.assignToValue, .variableName]⟩ },
    { kind := .variableType, fields := some [] } ]

/-- The kinds of nodes that are single tokens. -/
def tokenKinds : List Symbol :=
  [
    .comment, .functionName, .number, .paramContent, .paramTag, .parameterName,
    .returnsContent, .string, .summaryContent, .variableName, .lineFeed, .lparen, .rparen,
    .star, .plus, .comma, .minus, .slash, .semicolon, .less, .lessEqual, .notEqual, .equal,
    .greater, .greaterEqual, .kwAnd, .kwBitand, .kwBitor, .kwBitxor, .kwBool, .kwElse, .kwEnd,
    .kwFunction, .kwIf, .kwInt, .kwLong, .kwMod, .kwNot, .kwObject, .kwOr, .kwPrivate,
    .kwPublic, .kwQuality, .kwReal, .kwReturn, .kwString, .kwThen, .kwTimestamp, .kwVoid ]

/-- What nodes are made of, for each kind. -/
def nodeTypes : List NodeType := branchTypes ++ tokenKinds.map fun kind => { kind := kind }

end Cicode.Grammar
