import Cicode.Grammar.Row

/-!
# Rows of the parsing table: states 105 to 149

Each row lists, for one state, what to do on each terminal and which state follows each
nonterminal.
-/

namespace Cicode.Grammar

/-- State 105. -/
def row105 : Row where
  lexStart := 129
  actions := [
      ([.reduce .relationalOperators 1 0], [
        .identifier, .lparen, .number, .string, .minus, .kwNot]),
      ([.shiftExtra], [.comment])]

/-- State 106. -/
def row106 : Row where
  lexStart := 129
  actions := [
      ([.reduce .relationalOperators 1 0], [
        .identifier, .lparen, .number, .string, .minus, .kwNot]),
      ([.shiftExtra], [.comment])]

/-- State 107. -/
def row107 : Row where
  lexStart := 129
  actions := [
      ([.reduce .relationalOperators 1 0], [
        .identifier, .lparen, .number, .string, .minus, .kwNot]),
      ([.shiftExtra], [.comment])]

/-- State 108. -/
def row108 : Row where
  lexStart := 129
  actions := [
      ([.reduce .relationalOperators 1 0], [
        .identifier, .lparen, .number, .string, .minus, .kwNot]),
      ([.shiftExtra], [.comment])]

/-- State 109. -/
def row109 : Row where
  lexStart := 129
  actions := [
      ([.shift 69], [.identifier]),
      ([.shift 79], [.lparen]),
      ([.shift 71], [.number]),
      ([.shift 70], [.string]),
      ([.shift 73], [.minus]),
      ([.shiftExtra], [.comment])]
  gotos := [
      (160, [.expression]),
      (67, [.expressionAtom]),
      (74, [.functionCall])]

/-- State 110. -/
def row110 : Row where
  lexStart := 129
  actions := [
      ([.shift 69], [.identifier]),
      ([.shift 79], [.lparen]),
      ([.shift 71], [.number]),
      ([.shift 70], [.string]),
      ([.shift 73], [.minus]),
      ([.shiftExtra], [.comment])]
  gotos := [
      (161, [.expression]),
      (67, [.expressionAtom]),
      (74, [.functionCall])]

/-- State 111. -/
def row111 : Row where
  lexStart := 129
  actions := [
      ([.shift 69], [.identifier]),
      ([.shift 79], [.lparen]),
      ([.shift 71], [.number]),
      ([.shift 70], [.string]),
      ([.shift 73], [.minus]),
      ([.shiftExtra], [.comment])]
  gotos := [
      (162, [.expression]),
      (67, [.expressionAtom]),
      (74, [.functionCall])]

/-- State 112. -/
def row112 : Row where
  lexStart := 129
  actions := [
      ([.reduce .bitOperator 1 0], [.identifier, .lparen, .number, .string, .minus]),
      ([.shiftExtra], [.comment])]

/-- State 113. -/
def row113 : Row where
  lexStart := 129
  actions := [
      ([.reduce .additiveOperator 1 18], [.identifier, .lparen, .number, .string, .minus]),
      ([.shiftExtra], [.comment])]

/-- State 114. -/
def row114 : Row where
  lexStart := 129
  actions := [
      ([.reduce .multiplicativeOperator 1 18], [
        .identifier, .lparen, .number, .string, .minus]),
      ([.shiftExtra], [.comment])]

/-- State 115. -/
def row115 : Row where
  lexStart := 129
  actions := [
      ([.reduce .additiveSymbol 1 0], [.identifier, .lparen, .number, .string, .minus]),
      ([.shiftExtra], [.comment])]

/-- State 116. -/
def row116 : Row where
  lexStart := 129
  actions := [
      ([.reduce .additiveSymbol 1 0], [.identifier, .lparen, .number, .string, .minus]),
      ([.shiftExtra], [.comment])]

/-- State 117. -/
def row117 : Row where
  lexStart := 129
  actions := [
      ([.reduce .multiplicativeSymbol 1 0], [.identifier, .lparen, .number, .string, .minus]),
      ([.shiftExtra], [.comment])]

/-- State 118. -/
def row118 : Row where
  lexStart := 129
  actions := [
      ([.reduce .multiplicativeSymbol 1 0], [.identifier, .lparen, .number, .string, .minus]),
      ([.shiftExtra], [.comment])]

/-- State 119. -/
def row119 : Row where
  lexStart := 129
  actions := [
      ([.reduce .multiplicativeSymbol 1 0], [.identifier, .lparen, .number, .string, .minus]),
      ([.shiftExtra], [.comment])]

/-- State 120. -/
def row120 : Row where
  lexStart := 129
  actions := [
      ([.reduce .bitOperators 1 0], [.identifier, .lparen, .number, .string, .minus]),
      ([.shiftExtra], [.comment])]

/-- State 121. -/
def row121 : Row where
  lexStart := 129
  actions := [
      ([.reduce .bitOperators 1 0], [.identifier, .lparen, .number, .string, .minus]),
      ([.shiftExtra], [.comment])]

/-- State 122. -/
def row122 : Row where
  lexStart := 129
  actions := [
      ([.reduce .bitOperators 1 0], [.identifier, .lparen, .number, .string, .minus]),
      ([.shiftExtra], [.comment])]

/-- State 123. -/
def row123 : Row where
  lexStart := 138
  actions := [
      ([.shift 163], [.rparen]),
      ([.reduce .conditionalStatement 1 0], [
        .equal, .notEqual, .less, .greater, .lessEqual, .greaterEqual, .kwOr, .kwAnd]),
      ([.shift 115], [.plus]),
      ([.shift 116], [.minus]),
      ([.shift 117], [.star]),
      ([.shift 118], [.slash]),
      ([.shift 119], [.kwMod]),
      ([.shift 120], [.kwBitand]),
      ([.shift 121], [.kwBitor]),
      ([.shift 122], [.kwBitxor]),
      ([.shiftExtra], [.comment])]
  gotos := [
      (109, [.bitOperator]),
      (110, [.additiveOperator]),
      (111, [.multiplicativeOperator]),
      (113, [.additiveSymbol]),
      (114, [.multiplicativeSymbol]),
      (112, [.bitOperators])]

/-- State 124. -/
def row124 : Row where
  lexStart := 140
  actions := [
      ([.shift 164], [.rparen]),
      ([.shift 103], [.equal]),
      ([.shift 104], [.notEqual]),
      ([.shift 105], [.less]),
      ([.shift 106], [.greater]),
      ([.shift 107], [.lessEqual]),
      ([.shift 108], [.greaterEqual]),
      ([.shift 100], [.kwOr]),
      ([.shift 101], [.kwAnd]),
      ([.shiftExtra], [.comment])]
  gotos := [
      (95, [.orOperator]),
      (96, [.andOperator]),
      (98, [.orKeyword]),
      (99, [.andKeyword]),
      (97, [.relationalOperator]),
      (102, [.relationalOperators])]

/-- State 125. -/
def row125 : Row where
  lexStart := 136
  actions := [
      ([.reduce .expressionAtom 2 0], [
        .rparen, .comma, .equal, .semicolon, .plus, .minus, .star, .slash, .notEqual, .less,
        .greater, .lessEqual, .greaterEqual, .kwThen, .kwMod, .kwBitand, .kwBitor, .kwBitxor,
        .kwOr, .kwAnd]),
      ([.shiftExtra], [.comment])]

/-- State 126. -/
def row126 : Row where
  lexStart := 147
  actions := [
      ([.shift 65], [.lparen]),
      ([.reduce .conditionalAtom 1 19], [
        .rparen, .equal, .notEqual, .less, .greater, .lessEqual, .greaterEqual, .kwThen, .kwOr,
        .kwAnd]),
      ([.shiftExtra], [.comment])]

/-- State 127. -/
def row127 : Row where
  lexStart := 140
  actions := [
      ([.reduce .conditionalGroup 2 0], [
        .rparen, .equal, .notEqual, .less, .greater, .lessEqual, .greaterEqual, .kwThen, .kwOr,
        .kwAnd]),
      ([.shiftExtra], [.comment])]

/-- State 128. -/
def row128 : Row where
  lexStart := 140
  actions := [
      ([.reduce .conditionalAtom 1 0], [
        .rparen, .equal, .notEqual, .less, .greater, .lessEqual, .greaterEqual, .kwThen, .kwOr,
        .kwAnd]),
      ([.shiftExtra], [.comment])]

/-- State 129. -/
def row129 : Row where
  lexStart := 129
  actions := [
      ([.shift 69], [.identifier]),
      ([.shift 72], [.lparen]),
      ([.shift 71], [.number]),
      ([.shift 70], [.string]),
      ([.shift 73], [.minus]),
      ([.shift 76], [.kwNot]),
      ([.shiftExtra], [.comment])]
  gotos := [
      (68, [.expression]),
      (67, [.expressionAtom]),
      (74, [.functionCall]),
      (165, [.conditionalStatement]),
      (75, [.conditionalGroup])]

/-- State 130. -/
def row130 : Row where
  lexStart := 141
  actions := [
      ([.shift 126], [.identifier]),
      ([.shift 129], [.lparen]),
      ([.shift 130], [.kwNot]),
      ([.shiftExtra], [.comment])]
  gotos := [
      (128, [.functionCall]),
      (166, [.conditionalAtom])]

/-- State 131. -/
def row131 : Row where
  lexStart := 126
  actions := [
      ([.reduce .returnStatement 3 0], [.identifier, .kwEnd, .kwIf, .kwElse, .kwReturn]),
      ([.shiftExtra], [.comment])]

/-- State 132. -/
def row132 : Row where
  lexStart := 148
  actions := [
      ([.shift 163], [.rparen]),
      ([.shift 115], [.plus]),
      ([.shift 116], [.minus]),
      ([.shift 117], [.star]),
      ([.shift 118], [.slash]),
      ([.shift 119], [.kwMod]),
      ([.shift 120], [.kwBitand]),
      ([.shift 121], [.kwBitor]),
      ([.shift 122], [.kwBitxor]),
      ([.shiftExtra], [.comment])]
  gotos := [
      (109, [.bitOperator]),
      (110, [.additiveOperator]),
      (111, [.multiplicativeOperator]),
      (113, [.additiveSymbol]),
      (114, [.multiplicativeSymbol]),
      (112, [.bitOperators])]

/-- State 133. -/
def row133 : Row where
  lexStart := 131
  actions := [
      ([.shift 167], [.lparen]),
      ([.shiftExtra], [.comment])]

/-- State 134. -/
def row134 : Row where
  lexStart := 143
  actions := [
      ([.shift 169], [.rparen]),
      ([.shift 18], [.kwInt]),
      ([.shift 19], [.kwString]),
      ([.shift 20], [.kwReal]),
      ([.shift 21], [.kwQuality]),
      ([.shift 22], [.kwTimestamp]),
      ([.shift 23], [.kwBool]),
      ([.shift 24], [.kwObject]),
      ([.shift 25], [.kwLong]),
      ([.shiftExtra], [.comment])]
  gotos := [
      (138, [.type]),
      (140, [.parameterType]),
      (168, [.functionParameters]),
      (139, [.functionParameter])]

/-- State 135. -/
def row135 : Row where
  lexStart := 143
  actions := [
      ([.shift 171], [.rparen]),
      ([.shift 18], [.kwInt]),
      ([.shift 19], [.kwString]),
      ([.shift 20], [.kwReal]),
      ([.shift 21], [.kwQuality]),
      ([.shift 22], [.kwTimestamp]),
      ([.shift 23], [.kwBool]),
      ([.shift 24], [.kwObject]),
      ([.shift 25], [.kwLong]),
      ([.shiftExtra], [.comment])]
  gotos := [
      (138, [.type]),
      (140, [.parameterType]),
      (170, [.functionParameters]),
      (139, [.functionParameter])]

/-- State 136. -/
def row136 : Row where
  lexStart := 149
  actions := [
      ([.shift 172], [.rparen]),
      ([.shiftExtra], [.comment])]

/-- State 137. -/
def row137 : Row where
  lexStart := 150
  actions := [
      ([.shift 173], [.lineFeed]),
      ([.shiftExtra], [.comment])]

/-- State 138. -/
def row138 : Row where
  lexStart := 126
  actions := [
      ([.reduce .parameterType 1 0], [.identifier]),
      ([.shiftExtra], [.comment])]

/-- State 139. -/
def row139 : Row where
  lexStart := 152
  actions := [
      ([.reduce .functionParameters 1 0], [.rparen]),
      ([.shift 175], [.comma]),
      ([.shiftExtra], [.comment])]
  gotos := [
      (174, [.furtherParameters])]

/-- State 140. -/
def row140 : Row where
  lexStart := 126
  actions := [
      ([.shift 176], [.identifier]),
      ([.shiftExtra], [.comment])]

/-- State 141. -/
def row141 : Row where
  lexStart := 144
  actions := [
      ([.reduce .furtherVariables 2 0, .shiftRepeat 86], [.comma]),
      ([.reduce .furtherVariables 2 0], [.semicolon]),
      ([.shiftExtra], [.comment])]
  gotos := [
      (141, [.furtherVariables])]

/-- State 142. -/
def row142 : Row where
  lexStart := 126
  actions := [
      ([.reduce .variableDeclaration 4 14], [
        .identifier, .kwEnd, .kwInt, .kwString, .kwReal, .kwQuality, .kwTimestamp, .kwBool,
        .kwObject, .kwLong, .kwIf, .kwReturn]),
      ([.shiftExtra], [.comment])]

/-- State 143. -/
def row143 : Row where
  lexStart := 132
  actions := [
      ([.reduce .furtherVariables 2 12], [.comma, .semicolon]),
      ([.shift 89], [.equal]),
      ([.shiftExtra], [.comment])]
  gotos := [
      (177, [.assignToValue])]

/-- State 144. -/
def row144 : Row where
  lexStart := 144
  actions := [
      ([.shift 86], [.comma]),
      ([.shift 178], [.semicolon]),
      ([.shiftExtra], [.comment])]
  gotos := [
      (141, [.furtherVariables])]

/-- State 145. -/
def row145 : Row where
  lexStart := 126
  actions := [
      ([.reduce .variableDeclaration 4 14], [
        .identifier, .kwEnd, .kwInt, .kwString, .kwReal, .kwQuality, .kwTimestamp, .kwBool,
        .kwObject, .kwLong, .kwIf, .kwReturn]),
      ([.shiftExtra], [.comment])]

/-- State 146. -/
def row146 : Row where
  lexStart := 144
  actions := [
      ([.reduce .assignToValue 2 0], [.comma, .semicolon]),
      ([.shiftExtra], [.comment])]

/-- State 147. -/
def row147 : Row where
  lexStart := 144
  actions := [
      ([.reduce .assignToValue 2 0], [.comma, .semicolon]),
      ([.shiftExtra], [.comment])]

/-- State 148. -/
def row148 : Row where
  lexStart := 144
  actions := [
      ([.reduce .assignToValue 2 12], [.comma, .semicolon]),
      ([.shiftExtra], [.comment])]

/-- State 149. -/
def row149 : Row where
  lexStart := 126
  actions := [
      ([.reduce .variableAssignment 4 16], [.identifier, .kwEnd, .kwIf, .kwElse, .kwReturn]),
      ([.shiftExtra], [.comment])]

/-- The rows of states 105 to 149, in order. -/
def rowsExpression : List Row :=
  [
    row105, row106, row107, row108, row109, row110, row111, row112, row113, row114, row115,
    row116, row117, row118, row119, row120, row121, row122, row123, row124, row125, row126,
    row127, row128, row129, row130, row131, row132, row133, row134, row135, row136, row137,
    row138, row139, row140, row141, row142, row143, row144, row145, row146, row147, row148,
    row149 ]

end Cicode.Grammar
