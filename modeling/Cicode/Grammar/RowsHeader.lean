import Cicode.Grammar.Row

/-!
# Rows of the parsing table: states 0 to 59

Each row lists, for one state, what to do on each terminal and which state follows each
nonterminal.
-/

namespace Cicode.Grammar

/-- State 0. -/
def row0 : Row where
  lexStart := 0
  actions := [
      ([.recover], [
        .endOfInput, .identifier, .summaryStart, .summaryEnd, .paramTag, .paramEnd,
        .returnsStart, .returnsEnd, .lparen, .rparen, .lineFeed, .comma, .equal, .number,
        .string, .semicolon, .plus, .minus, .star, .slash, .notEqual, .less, .greater,
        .lessEqual, .greaterEqual, .kwEnd, .kwFunction, .kwPublic, .kwPrivate, .kwInt,
        .kwString, .kwReal, .kwQuality, .kwTimestamp, .kwBool, .kwObject, .kwLong, .kwVoid,
        .kwIf, .kwThen, .kwElse, .kwReturn, .kwMod, .kwBitand, .kwBitor, .kwBitxor, .kwOr,
        .kwAnd, .kwNot, .summaryContent, .paramContent, .returnsContent]),
      ([.shiftExtra], [.comment])]

/-- State 1. -/
def row1 : Row where
  lexStart := 109
  actions := [
      ([.reduce .sourceFile 0 0], [.endOfInput]),
      ([.shift 9], [.summaryStart]),
      ([.shift 10], [.paramTag]),
      ([.shift 11], [.returnsStart]),
      ([.shift 15], [.kwFunction]),
      ([.shift 16], [.kwPublic]),
      ([.shift 17], [.kwPrivate]),
      ([.shift 18], [.kwInt]),
      ([.shift 19], [.kwString]),
      ([.shift 20], [.kwReal]),
      ([.shift 21], [.kwQuality]),
      ([.shift 22], [.kwTimestamp]),
      ([.shift 23], [.kwBool]),
      ([.shift 24], [.kwObject]),
      ([.shift 25], [.kwLong]),
      ([.shift 27], [.kwVoid]),
      ([.shiftExtra], [.comment])]
  gotos := [
      (2, [.sourceFile]),
      (5, [.docComment]),
      (6, [.docSummary]),
      (7, [.docParam]),
      (8, [.docReturns]),
      (4, [.function]),
      (12, [.functionDefinition]),
      (13, [.functionScope]),
      (26, [.type]),
      (14, [.functionTypes]),
      (3, [.topLevelItems])]

/-- State 2. -/
def row2 : Row where
  lexStart := 112
  actions := [
      ([.accept], [.endOfInput]),
      ([.shiftExtra], [.comment])]

/-- State 3. -/
def row3 : Row where
  lexStart := 109
  actions := [
      ([.reduce .sourceFile 1 0], [.endOfInput]),
      ([.shift 9], [.summaryStart]),
      ([.shift 10], [.paramTag]),
      ([.shift 11], [.returnsStart]),
      ([.shift 15], [.kwFunction]),
      ([.shift 16], [.kwPublic]),
      ([.shift 17], [.kwPrivate]),
      ([.shift 18], [.kwInt]),
      ([.shift 19], [.kwString]),
      ([.shift 20], [.kwReal]),
      ([.shift 21], [.kwQuality]),
      ([.shift 22], [.kwTimestamp]),
      ([.shift 23], [.kwBool]),
      ([.shift 24], [.kwObject]),
      ([.shift 25], [.kwLong]),
      ([.shift 27], [.kwVoid]),
      ([.shiftExtra], [.comment])]
  gotos := [
      (5, [.docComment]),
      (6, [.docSummary]),
      (7, [.docParam]),
      (8, [.docReturns]),
      (4, [.function]),
      (12, [.functionDefinition]),
      (13, [.functionScope]),
      (26, [.type]),
      (14, [.functionTypes]),
      (28, [.topLevelItems])]

/-- State 4. -/
def row4 : Row where
  lexStart := 109
  actions := [
      ([.reduce .topLevelItems 1 0], [
        .endOfInput, .summaryStart, .paramTag, .returnsStart, .kwFunction, .kwPublic,
        .kwPrivate, .kwInt, .kwString, .kwReal, .kwQuality, .kwTimestamp, .kwBool, .kwObject,
        .kwLong, .kwVoid]),
      ([.shiftExtra], [.comment])]

/-- State 5. -/
def row5 : Row where
  lexStart := 109
  actions := [
      ([.reduce .topLevelItems 1 0], [
        .endOfInput, .summaryStart, .paramTag, .returnsStart, .kwFunction, .kwPublic,
        .kwPrivate, .kwInt, .kwString, .kwReal, .kwQuality, .kwTimestamp, .kwBool, .kwObject,
        .kwLong, .kwVoid]),
      ([.shiftExtra], [.comment])]

/-- State 6. -/
def row6 : Row where
  lexStart := 109
  actions := [
      ([.reduce .docComment 1 0], [
        .endOfInput, .summaryStart, .paramTag, .returnsStart, .kwFunction, .kwPublic,
        .kwPrivate, .kwInt, .kwString, .kwReal, .kwQuality, .kwTimestamp, .kwBool, .kwObject,
        .kwLong, .kwVoid]),
      ([.shiftExtra], [.comment])]

/-- State 7. -/
def row7 : Row where
  lexStart := 109
  actions := [
      ([.reduce .docComment 1 0], [
        .endOfInput, .summaryStart, .paramTag, .returnsStart, .kwFunction, .kwPublic,
        .kwPrivate, .kwInt, .kwString, .kwReal, .kwQuality, .kwTimestamp, .kwBool, .kwObject,
        .kwLong, .kwVoid]),
      ([.shiftExtra], [.comment])]

/-- State 8. -/
def row8 : Row where
  lexStart := 109
  actions := [
      ([.reduce .docComment 1 0], [
        .endOfInput, .summaryStart, .paramTag, .returnsStart, .kwFunction, .kwPublic,
        .kwPrivate, .kwInt, .kwString, .kwReal, .kwQuality, .kwTimestamp, .kwBool, .kwObject,
        .kwLong, .kwVoid]),
      ([.shiftExtra], [.comment])]

/-- State 9. -/
def row9 : Row where
  lexStart := 117
  docBody := some .summary
  actions := [
      ([.shift 30], [.summaryEnd]),
      ([.shift 29], [.summaryContent]),
      ([.shiftExtra], [.comment])]

/-- State 10. -/
def row10 : Row where
  lexStart := 120
  docBody := some .param
  actions := [
      ([.shift 32], [.paramEnd]),
      ([.shift 31], [.paramContent]),
      ([.shiftExtra], [.comment])]

/-- State 11. -/
def row11 : Row where
  lexStart := 123
  docBody := some .returns
  actions := [
      ([.shift 34], [.returnsEnd]),
      ([.shift 33], [.returnsContent]),
      ([.shiftExtra], [.comment])]

/-- State 12. -/
def row12 : Row where
  lexStart := 126
  actions := [
      ([.shift 47], [.identifier]),
      ([.shift 39], [.kwEnd]),
      ([.shift 18], [.kwInt]),
      ([.shift 19], [.kwString]),
      ([.shift 20], [.kwReal]),
      ([.shift 21], [.kwQuality]),
      ([.shift 22], [.kwTimestamp]),
      ([.shift 23], [.kwBool]),
      ([.shift 24], [.kwObject]),
      ([.shift 25], [.kwLong]),
      ([.shift 48], [.kwIf]),
      ([.shift 49], [.kwReturn]),
      ([.shiftExtra], [.comment])]
  gotos := [
      (40, [.type]),
      (41, [.variableType]),
      (36, [.variableDeclaration]),
      (38, [.bodyStatement]),
      (42, [.statementOrExpression]),
      (44, [.variableAssignment]),
      (45, [.ifStatement]),
      (43, [.returnStatement]),
      (46, [.functionCall]),
      (35, [.declarations]),
      (37, [.bodyStatements])]

/-- State 13. -/
def row13 : Row where
  lexStart := 126
  actions := [
      ([.shift 51], [.kwFunction]),
      ([.shift 18], [.kwInt]),
      ([.shift 19], [.kwString]),
      ([.shift 20], [.kwReal]),
      ([.shift 21], [.kwQuality]),
      ([.shift 22], [.kwTimestamp]),
      ([.shift 23], [.kwBool]),
      ([.shift 24], [.kwObject]),
      ([.shift 25], [.kwLong]),
      ([.shift 27], [.kwVoid]),
      ([.shiftExtra], [.comment])]
  gotos := [
      (26, [.type]),
      (50, [.functionTypes])]

/-- State 14. -/
def row14 : Row where
  lexStart := 126
  actions := [
      ([.shift 52], [.kwFunction]),
      ([.shiftExtra], [.comment])]

/-- State 15. -/
def row15 : Row where
  lexStart := 126
  actions := [
      ([.shift 53], [.identifier]),
      ([.shiftExtra], [.comment])]

/-- State 16. -/
def row16 : Row where
  lexStart := 126
  actions := [
      ([.reduce .functionScope 1 0], [
        .kwFunction, .kwInt, .kwString, .kwReal, .kwQuality, .kwTimestamp, .kwBool, .kwObject,
        .kwLong, .kwVoid]),
      ([.shiftExtra], [.comment])]

/-- State 17. -/
def row17 : Row where
  lexStart := 126
  actions := [
      ([.reduce .functionScope 1 0], [
        .kwFunction, .kwInt, .kwString, .kwReal, .kwQuality, .kwTimestamp, .kwBool, .kwObject,
        .kwLong, .kwVoid]),
      ([.shiftExtra], [.comment])]

/-- State 18. -/
def row18 : Row where
  lexStart := 126
  actions := [
      ([.reduce .type 1 0], [.identifier, .kwFunction]),
      ([.shiftExtra], [.comment])]

/-- State 19. -/
def row19 : Row where
  lexStart := 126
  actions := [
      ([.reduce .type 1 0], [.identifier, .kwFunction]),
      ([.shiftExtra], [.comment])]

/-- State 20. -/
def row20 : Row where
  lexStart := 126
  actions := [
      ([.reduce .type 1 0], [.identifier, .kwFunction]),
      ([.shiftExtra], [.comment])]

/-- State 21. -/
def row21 : Row where
  lexStart := 126
  actions := [
      ([.reduce .type 1 0], [.identifier, .kwFunction]),
      ([.shiftExtra], [.comment])]

/-- State 22. -/
def row22 : Row where
  lexStart := 126
  actions := [
      ([.reduce .type 1 0], [.identifier, .kwFunction]),
      ([.shiftExtra], [.comment])]

/-- State 23. -/
def row23 : Row where
  lexStart := 126
  actions := [
      ([.reduce .type 1 0], [.identifier, .kwFunction]),
      ([.shiftExtra], [.comment])]

/-- State 24. -/
def row24 : Row where
  lexStart := 126
  actions := [
      ([.reduce .type 1 0], [.identifier, .kwFunction]),
      ([.shiftExtra], [.comment])]

/-- State 25. -/
def row25 : Row where
  lexStart := 126
  actions := [
      ([.reduce .type 1 0], [.identifier, .kwFunction]),
      ([.shiftExtra], [.comment])]

/-- State 26. -/
def row26 : Row where
  lexStart := 126
  actions := [
      ([.reduce .functionTypes 1 0], [.kwFunction]),
      ([.shiftExtra], [.comment])]

/-- State 27. -/
def row27 : Row where
  lexStart := 126
  actions := [
      ([.reduce .functionTypes 1 0], [.kwFunction]),
      ([.shiftExtra], [.comment])]

/-- State 28. -/
def row28 : Row where
  lexStart := 109
  actions := [
      ([.reduce .topLevelItems 2 0], [.endOfInput]),
      ([.reduce .topLevelItems 2 0, .shiftRepeat 9], [.summaryStart]),
      ([.reduce .topLevelItems 2 0, .shiftRepeat 10], [.paramTag]),
      ([.reduce .topLevelItems 2 0, .shiftRepeat 11], [.returnsStart]),
      ([.reduce .topLevelItems 2 0, .shiftRepeat 15], [.kwFunction]),
      ([.reduce .topLevelItems 2 0, .shiftRepeat 16], [.kwPublic]),
      ([.reduce .topLevelItems 2 0, .shiftRepeat 17], [.kwPrivate]),
      ([.reduce .topLevelItems 2 0, .shiftRepeat 18], [.kwInt]),
      ([.reduce .topLevelItems 2 0, .shiftRepeat 19], [.kwString]),
      ([.reduce .topLevelItems 2 0, .shiftRepeat 20], [.kwReal]),
      ([.reduce .topLevelItems 2 0, .shiftRepeat 21], [.kwQuality]),
      ([.reduce .topLevelItems 2 0, .shiftRepeat 22], [.kwTimestamp]),
      ([.reduce .topLevelItems 2 0, .shiftRepeat 23], [.kwBool]),
      ([.reduce .topLevelItems 2 0, .shiftRepeat 24], [.kwObject]),
      ([.reduce .topLevelItems 2 0, .shiftRepeat 25], [.kwLong]),
      ([.reduce .topLevelItems 2 0, .shiftRepeat 27], [.kwVoid]),
      ([.shiftExtra], [.comment])]
  gotos := [
      (5, [.docComment]),
      (6, [.docSummary]),
      (7, [.docParam]),
      (8, [.docReturns]),
      (4, [.function]),
      (12, [.functionDefinition]),
      (13, [.functionScope]),
      (26, [.type]),
      (14, [.functionTypes]),
      (28, [.topLevelItems])]

/-- State 29. -/
def row29 : Row where
  lexStart := 117
  actions := [
      ([.shift 54], [.summaryEnd]),
      ([.shiftExtra], [.comment])]

/-- State 30. -/
def row30 : Row where
  lexStart := 109
  actions := [
      ([.reduce .docSummary 2 0], [
        .endOfInput, .summaryStart, .paramTag, .returnsStart, .kwFunction, .kwPublic,
        .kwPrivate, .kwInt, .kwString, .kwReal, .kwQuality, .kwTimestamp, .kwBool, .kwObject,
        .kwLong, .kwVoid]),
      ([.shiftExtra], [.comment])]

/-- State 31. -/
def row31 : Row where
  lexStart := 120
  actions := [
      ([.shift 55], [.paramEnd]),
      ([.shiftExtra], [.comment])]

/-- State 32. -/
def row32 : Row where
  lexStart := 109
  actions := [
      ([.reduce .docParam 2 0], [
        .endOfInput, .summaryStart, .paramTag, .returnsStart, .kwFunction, .kwPublic,
        .kwPrivate, .kwInt, .kwString, .kwReal, .kwQuality, .kwTimestamp, .kwBool, .kwObject,
        .kwLong, .kwVoid]),
      ([.shiftExtra], [.comment])]

/-- State 33. -/
def row33 : Row where
  lexStart := 123
  actions := [
      ([.shift 56], [.returnsEnd]),
      ([.shiftExtra], [.comment])]

/-- State 34. -/
def row34 : Row where
  lexStart := 109
  actions := [
      ([.reduce .docReturns 2 0], [
        .endOfInput, .summaryStart, .paramTag, .returnsStart, .kwFunction, .kwPublic,
        .kwPrivate, .kwInt, .kwString, .kwReal, .kwQuality, .kwTimestamp, .kwBool, .kwObject,
        .kwLong, .kwVoid]),
      ([.shiftExtra], [.comment])]

/-- State 35. -/
def row35 : Row where
  lexStart := 126
  actions := [
      ([.shift 47], [.identifier]),
      ([.shift 59], [.kwEnd]),
      ([.shift 18], [.kwInt]),
      ([.shift 19], [.kwString]),
      ([.shift 20], [.kwReal]),
      ([.shift 21], [.kwQuality]),
      ([.shift 22], [.kwTimestamp]),
      ([.shift 23], [.kwBool]),
      ([.shift 24], [.kwObject]),
      ([.shift 25], [.kwLong]),
      ([.shift 48], [.kwIf]),
      ([.shift 49], [.kwReturn]),
      ([.shiftExtra], [.comment])]
  gotos := [
      (40, [.type]),
      (41, [.variableType]),
      (36, [.variableDeclaration]),
      (38, [.bodyStatement]),
      (42, [.statementOrExpression]),
      (44, [.variableAssignment]),
      (45, [.ifStatement]),
      (43, [.returnStatement]),
      (46, [.functionCall]),
      (57, [.declarations]),
      (58, [.bodyStatements])]

/-- State 36. -/
def row36 : Row where
  lexStart := 126
  actions := [
      ([.reduce .declarations 1 0], [
        .identifier, .kwEnd, .kwInt, .kwString, .kwReal, .kwQuality, .kwTimestamp, .kwBool,
        .kwObject, .kwLong, .kwIf, .kwReturn]),
      ([.shiftExtra], [.comment])]

/-- State 37. -/
def row37 : Row where
  lexStart := 126
  actions := [
      ([.shift 47], [.identifier]),
      ([.shift 61], [.kwEnd]),
      ([.shift 48], [.kwIf]),
      ([.shift 49], [.kwReturn]),
      ([.shiftExtra], [.comment])]
  gotos := [
      (38, [.bodyStatement]),
      (42, [.statementOrExpression]),
      (44, [.variableAssignment]),
      (45, [.ifStatement]),
      (43, [.returnStatement]),
      (46, [.functionCall]),
      (60, [.bodyStatements])]

/-- State 38. -/
def row38 : Row where
  lexStart := 126
  actions := [
      ([.reduce .bodyStatements 1 0], [.identifier, .kwEnd, .kwIf, .kwReturn]),
      ([.shiftExtra], [.comment])]

/-- State 39. -/
def row39 : Row where
  lexStart := 109
  actions := [
      ([.reduce .function 2 0], [
        .endOfInput, .summaryStart, .paramTag, .returnsStart, .kwFunction, .kwPublic,
        .kwPrivate, .kwInt, .kwString, .kwReal, .kwQuality, .kwTimestamp, .kwBool, .kwObject,
        .kwLong, .kwVoid]),
      ([.shiftExtra], [.comment])]

/-- State 40. -/
def row40 : Row where
  lexStart := 126
  actions := [
      ([.reduce .variableType 1 0], [.identifier]),
      ([.shiftExtra], [.comment])]

/-- State 41. -/
def row41 : Row where
  lexStart := 126
  actions := [
      ([.shift 62], [.identifier]),
      ([.shiftExtra], [.comment])]

/-- State 42. -/
def row42 : Row where
  lexStart := 126
  actions := [
      ([.reduce .bodyStatement 1 0], [.identifier, .kwEnd, .kwIf, .kwElse, .kwReturn]),
      ([.shiftExtra], [.comment])]

/-- State 43. -/
def row43 : Row where
  lexStart := 126
  actions := [
      ([.reduce .bodyStatement 1 0], [.identifier, .kwEnd, .kwIf, .kwElse, .kwReturn]),
      ([.shiftExtra], [.comment])]

/-- State 44. -/
def row44 : Row where
  lexStart := 126
  actions := [
      ([.reduce .statementOrExpression 1 0], [
        .identifier, .kwEnd, .kwIf, .kwElse, .kwReturn]),
      ([.shiftExtra], [.comment])]

/-- State 45. -/
def row45 : Row where
  lexStart := 126
  actions := [
      ([.reduce .statementOrExpression 1 0], [
        .identifier, .kwEnd, .kwIf, .kwElse, .kwReturn]),
      ([.shiftExtra], [.comment])]

/-- State 46. -/
def row46 : Row where
  lexStart := 127
  actions := [
      ([.shift 63], [.semicolon]),
      ([.shiftExtra], [.comment])]

/-- State 47. -/
def row47 : Row where
  lexStart := 128
  actions := [
      ([.shift 65], [.lparen]),
      ([.shift 64], [.equal]),
      ([.shiftExtra], [.comment])]

/-- State 48. -/
def row48 : Row where
  lexStart := 129
  actions := [
      ([.shift 69], [.identifier]),
      ([.shift 72], [.lparen]),
      ([.shift 71], [.number]),
      ([.shift 70], [.string]),
      ([.shift 73], [.minus]),
      ([.shift 76], [.kwNot]),
      ([.shiftExtra], [.comment])]
  gotos := [
      (68, [.expression]),
      (67, [.expressionAtom]),
      (74, [.functionCall]),
      (66, [.conditionalStatement]),
      (75, [.conditionalGroup])]

/-- State 49. -/
def row49 : Row where
  lexStart := 130
  actions := [
      ([.shift 69], [.identifier]),
      ([.shift 79], [.lparen]),
      ([.shift 71], [.number]),
      ([.shift 70], [.string]),
      ([.shift 78], [.semicolon]),
      ([.shift 73], [.minus]),
      ([.shiftExtra], [.comment])]
  gotos := [
      (77, [.expression]),
      (67, [.expressionAtom]),
      (74, [.functionCall])]

/-- State 50. -/
def row50 : Row where
  lexStart := 126
  actions := [
      ([.shift 80], [.kwFunction]),
      ([.shiftExtra], [.comment])]

/-- State 51. -/
def row51 : Row where
  lexStart := 126
  actions := [
      ([.shift 81], [.identifier]),
      ([.shiftExtra], [.comment])]

/-- State 52. -/
def row52 : Row where
  lexStart := 126
  actions := [
      ([.shift 82], [.identifier]),
      ([.shiftExtra], [.comment])]

/-- State 53. -/
def row53 : Row where
  lexStart := 131
  actions := [
      ([.shift 83], [.lparen]),
      ([.shiftExtra], [.comment])]

/-- State 54. -/
def row54 : Row where
  lexStart := 109
  actions := [
      ([.reduce .docSummary 3 0], [
        .endOfInput, .summaryStart, .paramTag, .returnsStart, .kwFunction, .kwPublic,
        .kwPrivate, .kwInt, .kwString, .kwReal, .kwQuality, .kwTimestamp, .kwBool, .kwObject,
        .kwLong, .kwVoid]),
      ([.shiftExtra], [.comment])]

/-- State 55. -/
def row55 : Row where
  lexStart := 109
  actions := [
      ([.reduce .docParam 3 0], [
        .endOfInput, .summaryStart, .paramTag, .returnsStart, .kwFunction, .kwPublic,
        .kwPrivate, .kwInt, .kwString, .kwReal, .kwQuality, .kwTimestamp, .kwBool, .kwObject,
        .kwLong, .kwVoid]),
      ([.shiftExtra], [.comment])]

/-- State 56. -/
def row56 : Row where
  lexStart := 109
  actions := [
      ([.reduce .docReturns 3 0], [
        .endOfInput, .summaryStart, .paramTag, .returnsStart, .kwFunction, .kwPublic,
        .kwPrivate, .kwInt, .kwString, .kwReal, .kwQuality, .kwTimestamp, .kwBool, .kwObject,
        .kwLong, .kwVoid]),
      ([.shiftExtra], [.comment])]

/-- State 57. -/
def row57 : Row where
  lexStart := 126
  actions := [
      ([.reduce .declarations 2 0], [.identifier, .kwEnd, .kwIf, .kwReturn]),
      ([.reduce .declarations 2 0, .shiftRepeat 18], [.kwInt]),
      ([.reduce .declarations 2 0, .shiftRepeat 19], [.kwString]),
      ([.reduce .declarations 2 0, .shiftRepeat 20], [.kwReal]),
      ([.reduce .declarations 2 0, .shiftRepeat 21], [.kwQuality]),
      ([.reduce .declarations 2 0, .shiftRepeat 22], [.kwTimestamp]),
      ([.reduce .declarations 2 0, .shiftRepeat 23], [.kwBool]),
      ([.reduce .declarations 2 0, .shiftRepeat 24], [.kwObject]),
      ([.reduce .declarations 2 0, .shiftRepeat 25], [.kwLong]),
      ([.shiftExtra], [.comment])]
  gotos := [
      (40, [.type]),
      (41, [.variableType]),
      (36, [.variableDeclaration]),
      (57, [.declarations])]

/-- State 58. -/
def row58 : Row where
  lexStart := 126
  actions := [
      ([.shift 47], [.identifier]),
      ([.shift 84], [.kwEnd]),
      ([.shift 48], [.kwIf]),
      ([.shift 49], [.kwReturn]),
      ([.shiftExtra], [.comment])]
  gotos := [
      (38, [.bodyStatement]),
      (42, [.statementOrExpression]),
      (44, [.variableAssignment]),
      (45, [.ifStatement]),
      (43, [.returnStatement]),
      (46, [.functionCall]),
      (60, [.bodyStatements])]

/-- State 59. -/
def row59 : Row where
  lexStart := 109
  actions := [
      ([.reduce .function 3 0], [
        .endOfInput, .summaryStart, .paramTag, .returnsStart, .kwFunction, .kwPublic,
        .kwPrivate, .kwInt, .kwString, .kwReal, .kwQuality, .kwTimestamp, .kwBool, .kwObject,
        .kwLong, .kwVoid]),
      ([.shiftExtra], [.comment])]

/-- The rows of states 0 to 59, in order. -/
def rowsHeader : List Row :=
  [
    row0, row1, row2, row3, row4, row5, row6, row7, row8, row9, row10, row11, row12, row13,
    row14, row15, row16, row17, row18, row19, row20, row21, row22, row23, row24, row25, row26,
    row27, row28, row29, row30, row31, row32, row33, row34, row35, row36, row37, row38, row39,
    row40, row41, row42, row43, row44, row45, row46, row47, row48, row49, row50, row51, row52,
    row53, row54, row55, row56, row57, row58, row59 ]

end Cicode.Grammar
