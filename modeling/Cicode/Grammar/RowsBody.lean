import Cicode.Grammar.Row

/-!
# Rows of the parsing table: states 60 to 104

Each row lists, for one state, what to do on each terminal and which state follows each
nonterminal.
-/

namespace Cicode.Grammar

/-- State 60. -/
def row60 : Row where
  lexStart := 126
  actions := [
      ([.reduce .bodyStatements 2 0, .shiftRepeat 47], [.identifier]),
      ([.reduce .bodyStatements 2 0], [.kwEnd]),
      ([.reduce .bodyStatements 2 0, .shiftRepeat 48], [.kwIf]),
      ([.reduce .bodyStatements 2 0, .shiftRepeat 49], [.kwReturn]),
      ([.shiftExtra], [.comment])]
  gotos := [
      (38, [.bodyStatement]),
      (42, [.statementOrExpression]),
      (44, [.variableAssignment]),
      (45, [.ifStatement]),
      (43, [.returnStatement]),
      (46, [.functionCall]),
      (60, [.bodyStatements])]

/-- State 61. -/
def row61 : Row where
  lexStart := 109
  actions := [
      ([.reduce .function 3 0], [
        .endOfInput, .summaryStart, .paramTag, .returnsStart, .kwFunction, .kwPublic,
        .kwPrivate, .kwInt, .kwString, .kwReal, .kwQuality, .kwTimestamp, .kwBool, .kwObject,
        .kwLong, .kwVoid]),
      ([.shiftExtra], [.comment])]

/-- State 62. -/
def row62 : Row where
  lexStart := 132
  actions := [
      ([.shift 86], [.comma]),
      ([.shift 89], [.equal]),
      ([.shift 88], [.semicolon]),
      ([.shiftExtra], [.comment])]
  gotos := [
      (87, [.assignToValue]),
      (85, [.furtherVariables])]

/-- State 63. -/
def row63 : Row where
  lexStart := 126
  actions := [
      ([.reduce .statementOrExpression 2 0], [
        .identifier, .kwEnd, .kwIf, .kwElse, .kwReturn]),
      ([.shiftExtra], [.comment])]

/-- State 64. -/
def row64 : Row where
  lexStart := 129
  actions := [
      ([.shift 69], [.identifier]),
      ([.shift 79], [.lparen]),
      ([.shift 71], [.number]),
      ([.shift 70], [.string]),
      ([.shift 73], [.minus]),
      ([.shiftExtra], [.comment])]
  gotos := [
      (90, [.expressionVariableAssignments]),
      (91, [.expression]),
      (67, [.expressionAtom]),
      (74, [.functionCall])]

/-- State 65. -/
def row65 : Row where
  lexStart := 133
  actions := [
      ([.shift 69], [.identifier]),
      ([.shift 79], [.lparen]),
      ([.shift 93], [.rparen]),
      ([.shift 71], [.number]),
      ([.shift 70], [.string]),
      ([.shift 73], [.minus]),
      ([.shiftExtra], [.comment])]
  gotos := [
      (92, [.expression]),
      (67, [.expressionAtom]),
      (74, [.functionCall])]

/-- State 66. -/
def row66 : Row where
  lexStart := 134
  actions := [
      ([.shift 103], [.equal]),
      ([.shift 104], [.notEqual]),
      ([.shift 105], [.less]),
      ([.shift 106], [.greater]),
      ([.shift 107], [.lessEqual]),
      ([.shift 108], [.greaterEqual]),
      ([.shift 94], [.kwThen]),
      ([.shift 100], [.kwOr]),
      ([.shift 101], [.kwAnd]),
      ([.shiftExtra], [.comment])]
  gotos := [
      (95, [.orOperator]),
      (96, [.andOperator]),
      (98, [.orKeyword]),
      (99, [.andKeyword]),
      (97, [.relationalOperator]),
      (102, [.relationalOperators])]

/-- State 67. -/
def row67 : Row where
  lexStart := 136
  actions := [
      ([.reduce .expression 1 0], [
        .rparen, .comma, .equal, .semicolon, .plus, .minus, .star, .slash, .notEqual, .less,
        .greater, .lessEqual, .greaterEqual, .kwThen, .kwMod, .kwBitand, .kwBitor, .kwBitxor,
        .kwOr, .kwAnd]),
      ([.shiftExtra], [.comment])]

/-- State 68. -/
def row68 : Row where
  lexStart := 138
  actions := [
      ([.reduce .conditionalStatement 1 0], [
        .rparen, .equal, .notEqual, .less, .greater, .lessEqual, .greaterEqual, .kwThen, .kwOr,
        .kwAnd]),
      ([.shift 115], [.plus]),
      ([.shift 116], [.minus]),
      ([.shift 117], [.star]),
      ([.shift 118], [.slash]),
      ([.shift 119], [.kwMod]),
      ([.shift 120], [.kwBitand]),
      ([.shift 121], [.kwBitor]),
      ([.shift 122], [.kwBitxor]),
      ([.shiftExtra], [.comment])]
  gotos := [
      (109, [.bitOperator]),
      (110, [.additiveOperator]),
      (111, [.multiplicativeOperator]),
      (113, [.additiveSymbol]),
      (114, [.multiplicativeSymbol]),
      (112, [.bitOperators])]

/-- State 69. -/
def row69 : Row where
  lexStart := 139
  actions := [
      ([.shift 65], [.lparen]),
      ([.reduce .expressionAtom 1 19], [
        .rparen, .comma, .equal, .semicolon, .plus, .minus, .star, .slash, .notEqual, .less,
        .greater, .lessEqual, .greaterEqual, .kwThen, .kwMod, .kwBitand, .kwBitor, .kwBitxor,
        .kwOr, .kwAnd]),
      ([.shiftExtra], [.comment])]

/-- State 70. -/
def row70 : Row where
  lexStart := 136
  actions := [
      ([.reduce .expressionAtom 1 0], [
        .rparen, .comma, .equal, .semicolon, .plus, .minus, .star, .slash, .notEqual, .less,
        .greater, .lessEqual, .greaterEqual, .kwThen, .kwMod, .kwBitand, .kwBitor, .kwBitxor,
        .kwOr, .kwAnd]),
      ([.shiftExtra], [.comment])]

/-- State 71. -/
def row71 : Row where
  lexStart := 136
  actions := [
      ([.reduce .expressionAtom 1 0], [
        .rparen, .comma, .equal, .semicolon, .plus, .minus, .star, .slash, .notEqual, .less,
        .greater, .lessEqual, .greaterEqual, .kwThen, .kwMod, .kwBitand, .kwBitor, .kwBitxor,
        .kwOr, .kwAnd]),
      ([.shiftExtra], [.comment])]

/-- State 72. -/
def row72 : Row where
  lexStart := 129
  actions := [
      ([.shift 69], [.identifier]),
      ([.shift 72], [.lparen]),
      ([.shift 71], [.number]),
      ([.shift 70], [.string]),
      ([.shift 73], [.minus]),
      ([.shift 76], [.kwNot]),
      ([.shiftExtra], [.comment])]
  gotos := [
      (123, [.expression]),
      (67, [.expressionAtom]),
      (74, [.functionCall]),
      (124, [.conditionalStatement]),
      (75, [.conditionalGroup])]

/-- State 73. -/
def row73 : Row where
  lexStart := 129
  actions := [
      ([.shift 69], [.identifier]),
      ([.shift 79], [.lparen]),
      ([.shift 71], [.number]),
      ([.shift 70], [.string]),
      ([.shift 73], [.minus]),
      ([.shiftExtra], [.comment])]
  gotos := [
      (125, [.expressionAtom]),
      (74, [.functionCall])]

/-- State 74. -/
def row74 : Row where
  lexStart := 136
  actions := [
      ([.reduce .expressionAtom 1 0], [
        .rparen, .comma, .equal, .semicolon, .plus, .minus, .star, .slash, .notEqual, .less,
        .greater, .lessEqual, .greaterEqual, .kwThen, .kwMod, .kwBitand, .kwBitor, .kwBitxor,
        .kwOr, .kwAnd]),
      ([.shiftExtra], [.comment])]

/-- State 75. -/
def row75 : Row where
  lexStart := 140
  actions := [
      ([.reduce .conditionalStatement 1 23], [
        .rparen, .equal, .notEqual, .less, .greater, .lessEqual, .greaterEqual, .kwThen, .kwOr,
        .kwAnd]),
      ([.shiftExtra], [.comment])]

/-- State 76. -/
def row76 : Row where
  lexStart := 141
  actions := [
      ([.shift 126], [.identifier]),
      ([.shift 129], [.lparen]),
      ([.shift 130], [.kwNot]),
      ([.shiftExtra], [.comment])]
  gotos := [
      (128, [.functionCall]),
      (127, [.conditionalAtom])]

/-- State 77. -/
def row77 : Row where
  lexStart := 142
  actions := [
      ([.shift 131], [.semicolon]),
      ([.shift 115], [.plus]),
      ([.shift 116], [.minus]),
      ([.shift 117], [.star]),
      ([.shift 118], [.slash]),
      ([.shift 119], [.kwMod]),
      ([.shift 120], [.kwBitand]),
      ([.shift 121], [.kwBitor]),
      ([.shift 122], [.kwBitxor]),
      ([.shiftExtra], [.comment])]
  gotos := [
      (109, [.bitOperator]),
      (110, [.additiveOperator]),
      (111, [.multiplicativeOperator]),
      (113, [.additiveSymbol]),
      (114, [.multiplicativeSymbol]),
      (112, [.bitOperators])]

/-- State 78. -/
def row78 : Row where
  lexStart := 126
  actions := [
      ([.reduce .returnStatement 2 0], [.identifier, .kwEnd, .kwIf, .kwElse, .kwReturn]),
      ([.shiftExtra], [.comment])]

/-- State 79. -/
def row79 : Row where
  lexStart := 129
  actions := [
      ([.shift 69], [.identifier]),
      ([.shift 79], [.lparen]),
      ([.shift 71], [.number]),
      ([.shift 70], [.string]),
      ([.shift 73], [.minus]),
      ([.shiftExtra], [.comment])]
  gotos := [
      (132, [.expression]),
      (67, [.expressionAtom]),
      (74, [.functionCall])]

/-- State 80. -/
def row80 : Row where
  lexStart := 126
  actions := [
      ([.shift 133], [.identifier]),
      ([.shiftExtra], [.comment])]

/-- State 81. -/
def row81 : Row where
  lexStart := 131
  actions := [
      ([.shift 134], [.lparen]),
      ([.shiftExtra], [.comment])]

/-- State 82. -/
def row82 : Row where
  lexStart := 131
  actions := [
      ([.shift 135], [.lparen]),
      ([.shiftExtra], [.comment])]

/-- State 83. -/
def row83 : Row where
  lexStart := 143
  actions := [
      ([.shift 137], [.rparen]),
      ([.shift 18], [.kwInt]),
      ([.shift 19], [.kwString]),
      ([.shift 20], [.kwReal]),
      ([.shift 21], [.kwQuality]),
      ([.shift 22], [.kwTimestamp]),
      ([.shift 23], [.kwBool]),
      ([.shift 24], [.kwObject]),
      ([.shift 25], [.kwLong]),
      ([.shiftExtra], [.comment])]
  gotos := [
      (138, [.type]),
      (140, [.parameterType]),
      (136, [.functionParameters]),
      (139, [.functionParameter])]

/-- State 84. -/
def row84 : Row where
  lexStart := 109
  actions := [
      ([.reduce .function 4 0], [
        .endOfInput, .summaryStart, .paramTag, .returnsStart, .kwFunction, .kwPublic,
        .kwPrivate, .kwInt, .kwString, .kwReal, .kwQuality, .kwTimestamp, .kwBool, .kwObject,
        .kwLong, .kwVoid]),
      ([.shiftExtra], [.comment])]

/-- State 85. -/
def row85 : Row where
  lexStart := 144
  actions := [
      ([.shift 86], [.comma]),
      ([.shift 142], [.semicolon]),
      ([.shiftExtra], [.comment])]
  gotos := [
      (141, [.furtherVariables])]

/-- State 86. -/
def row86 : Row where
  lexStart := 126
  actions := [
      ([.shift 143], [.identifier]),
      ([.shiftExtra], [.comment])]

/-- State 87. -/
def row87 : Row where
  lexStart := 144
  actions := [
      ([.shift 86], [.comma]),
      ([.shift 145], [.semicolon]),
      ([.shiftExtra], [.comment])]
  gotos := [
      (144, [.furtherVariables])]

/-- State 88. -/
def row88 : Row where
  lexStart := 126
  actions := [
      ([.reduce .variableDeclaration 3 15], [
        .identifier, .kwEnd, .kwInt, .kwString, .kwReal, .kwQuality, .kwTimestamp, .kwBool,
        .kwObject, .kwLong, .kwIf, .kwReturn]),
      ([.shiftExtra], [.comment])]

/-- State 89. -/
def row89 : Row where
  lexStart := 145
  actions := [
      ([.shift 148], [.identifier]),
      ([.shift 146], [.number]),
      ([.shift 147], [.string]),
      ([.shiftExtra], [.comment])]

/-- State 90. -/
def row90 : Row where
  lexStart := 127
  actions := [
      ([.shift 149], [.semicolon]),
      ([.shiftExtra], [.comment])]

/-- State 91. -/
def row91 : Row where
  lexStart := 142
  actions := [
      ([.reduce .expressionVariableAssignments 1 0], [.semicolon]),
      ([.shift 115], [.plus]),
      ([.shift 116], [.minus]),
      ([.shift 117], [.star]),
      ([.shift 118], [.slash]),
      ([.shift 119], [.kwMod]),
      ([.shift 120], [.kwBitand]),
      ([.shift 121], [.kwBitor]),
      ([.shift 122], [.kwBitxor]),
      ([.shiftExtra], [.comment])]
  gotos := [
      (109, [.bitOperator]),
      (110, [.additiveOperator]),
      (111, [.multiplicativeOperator]),
      (113, [.additiveSymbol]),
      (114, [.multiplicativeSymbol]),
      (112, [.bitOperators])]

/-- State 92. -/
def row92 : Row where
  lexStart := 146
  actions := [
      ([.shift 152], [.rparen]),
      ([.shift 151], [.comma]),
      ([.shift 115], [.plus]),
      ([.shift 116], [.minus]),
      ([.shift 117], [.star]),
      ([.shift 118], [.slash]),
      ([.shift 119], [.kwMod]),
      ([.shift 120], [.kwBitand]),
      ([.shift 121], [.kwBitor]),
      ([.shift 122], [.kwBitxor]),
      ([.shiftExtra], [.comment])]
  gotos := [
      (109, [.bitOperator]),
      (110, [.additiveOperator]),
      (111, [.multiplicativeOperator]),
      (113, [.additiveSymbol]),
      (114, [.multiplicativeSymbol]),
      (112, [.bitOperators]),
      (150, [.furtherArguments])]

/-- State 93. -/
def row93 : Row where
  lexStart := 136
  actions := [
      ([.reduce .functionCall 3 22], [
        .rparen, .comma, .equal, .semicolon, .plus, .minus, .star, .slash, .notEqual, .less,
        .greater, .lessEqual, .greaterEqual, .kwThen, .kwMod, .kwBitand, .kwBitor, .kwBitxor,
        .kwOr, .kwAnd]),
      ([.shiftExtra], [.comment])]

/-- State 94. -/
def row94 : Row where
  lexStart := 126
  actions := [
      ([.shift 47], [.identifier]),
      ([.shift 156], [.kwEnd]),
      ([.shift 48], [.kwIf]),
      ([.shift 155], [.kwElse]),
      ([.shift 49], [.kwReturn]),
      ([.shiftExtra], [.comment])]
  gotos := [
      (154, [.bodyStatement]),
      (42, [.statementOrExpression]),
      (44, [.variableAssignment]),
      (45, [.ifStatement]),
      (43, [.returnStatement]),
      (46, [.functionCall]),
      (153, [.branchStatements])]

/-- State 95. -/
def row95 : Row where
  lexStart := 129
  actions := [
      ([.shift 69], [.identifier]),
      ([.shift 72], [.lparen]),
      ([.shift 71], [.number]),
      ([.shift 70], [.string]),
      ([.shift 73], [.minus]),
      ([.shift 76], [.kwNot]),
      ([.shiftExtra], [.comment])]
  gotos := [
      (68, [.expression]),
      (67, [.expressionAtom]),
      (74, [.functionCall]),
      (157, [.conditionalStatement]),
      (75, [.conditionalGroup])]

/-- State 96. -/
def row96 : Row where
  lexStart := 129
  actions := [
      ([.shift 69], [.identifier]),
      ([.shift 72], [.lparen]),
      ([.shift 71], [.number]),
      ([.shift 70], [.string]),
      ([.shift 73], [.minus]),
      ([.shift 76], [.kwNot]),
      ([.shiftExtra], [.comment])]
  gotos := [
      (68, [.expression]),
      (67, [.expressionAtom]),
      (74, [.functionCall]),
      (158, [.conditionalStatement]),
      (75, [.conditionalGroup])]

/-- State 97. -/
def row97 : Row where
  lexStart := 129
  actions := [
      ([.shift 69], [.identifier]),
      ([.shift 72], [.lparen]),
      ([.shift 71], [.number]),
      ([.shift 70], [.string]),
      ([.shift 73], [.minus]),
      ([.shift 76], [.kwNot]),
      ([.shiftExtra], [.comment])]
  gotos := [
      (68, [.expression]),
      (67, [.expressionAtom]),
      (74, [.functionCall]),
      (159, [.conditionalStatement]),
      (75, [.conditionalGroup])]

/-- State 98. -/
def row98 : Row where
  lexStart := 129
  actions := [
      ([.reduce .orOperator 1 25], [.identifier, .lparen, .number, .string, .minus, .kwNot]),
      ([.shiftExtra], [.comment])]

/-- State 99. -/
def row99 : Row where
  lexStart := 129
  actions := [
      ([.reduce .andOperator 1 25], [.identifier, .lparen, .number, .string, .minus, .kwNot]),
      ([.shiftExtra], [.comment])]

/-- State 100. -/
def row100 : Row where
  lexStart := 129
  actions := [
      ([.reduce .orKeyword 1 0], [.identifier, .lparen, .number, .string, .minus, .kwNot]),
      ([.shiftExtra], [.comment])]

/-- State 101. -/
def row101 : Row where
  lexStart := 129
  actions := [
      ([.reduce .andKeyword 1 0], [.identifier, .lparen, .number, .string, .minus, .kwNot]),
      ([.shiftExtra], [.comment])]

/-- State 102. -/
def row102 : Row where
  lexStart := 129
  actions := [
      ([.reduce .relationalOperator 1 0], [
        .identifier, .lparen, .number, .string, .minus, .kwNot]),
      ([.shiftExtra], [.comment])]

/-- State 103. -/
def row103 : Row where
  lexStart := 129
  actions := [
      ([.reduce .relationalOperators 1 0], [
        .identifier, .lparen, .number, .string, .minus, .kwNot]),
      ([.shiftExtra], [.comment])]

/-- State 104. -/
def row104 : Row where
  lexStart := 129
  actions := [
      ([.reduce .relationalOperators 1 0], [
        .identifier, .lparen, .number, .string, .minus, .kwNot]),
      ([.shiftExtra], [.comment])]

/-- The rows of states 60 to 104, in order. -/
def rowsBody : List Row :=
  [
    row60, row61, row62, row63, row64, row65, row66, row67, row68, row69, row70, row71, row72,
    row73, row74, row75, row76, row77, row78, row79, row80, row81, row82, row83, row84, row85,
    row86, row87, row88, row89, row90, row91, row92, row93, row94, row95, row96, row97, row98,
    row99, row100, row101, row102, row103, row104 ]

end Cicode.Grammar
