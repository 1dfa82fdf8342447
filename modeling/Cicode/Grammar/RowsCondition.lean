import Cicode.Grammar.Row

/-!
# Rows of the parsing table: states 150 to 209

Each row lists, for one state, what to do on each terminal and which state follows each
nonterminal.
-/

namespace Cicode.Grammar

/-- State 150. -/
def row150 : Row where
  lexStart := 152
  actions := [
      ([.shift 180], [.rparen]),
      ([.shift 151], [.comma]),
      ([.shiftExtra], [.comment])]
  gotos := [
      (179, [.furtherArguments])]

/-- State 151. -/
def row151 : Row where
  lexStart := 129
  actions := [
      ([.shift 69], [.identifier]),
      ([.shift 79], [.lparen]),
      ([.shift 71], [.number]),
      ([.shift 70], [.string]),
      ([.shift 73], [.minus]),
      ([.shiftExtra], [.comment])]
  gotos := [
      (181, [.expression]),
      (67, [.expressionAtom]),
      (74, [.functionCall])]

/-- State 152. -/
def row152 : Row where
  lexStart := 136
  actions := [
      ([.reduce .functionCall 4 21], [
        .rparen, .comma, .equal, .semicolon, .plus, .minus, .star, .slash, .notEqual, .less,
        .greater, .lessEqual, .greaterEqual, .kwThen, .kwMod, .kwBitand, .kwBitor, .kwBitxor,
        .kwOr, .kwAnd]),
      ([.shiftExtra], [.comment])]

/-- State 153. -/
def row153 : Row where
  lexStart := 126
  actions := [
      ([.shift 47], [.identifier]),
      ([.shift 184], [.kwEnd]),
      ([.shift 48], [.kwIf]),
      ([.shift 183], [.kwElse]),
      ([.shift 49], [.kwReturn]),
      ([.shiftExtra], [.comment])]
  gotos := [
      (154, [.bodyStatement]),
      (42, [.statementOrExpression]),
      (44, [.variableAssignment]),
      (45, [.ifStatement]),
      (43, [.returnStatement]),
      (46, [.functionCall]),
      (182, [.branchStatements])]

/-- State 154. -/
def row154 : Row where
  lexStart := 126
  actions := [
      ([.reduce .branchStatements 1 0], [.identifier, .kwEnd, .kwIf, .kwElse, .kwReturn]),
      ([.shiftExtra], [.comment])]

/-- State 155. -/
def row155 : Row where
  lexStart := 126
  actions := [
      ([.shift 47], [.identifier]),
      ([.shift 186], [.kwEnd]),
      ([.shift 48], [.kwIf]),
      ([.shift 49], [.kwReturn]),
      ([.shiftExtra], [.comment])]
  gotos := [
      (154, [.bodyStatement]),
      (42, [.statementOrExpression]),
      (44, [.variableAssignment]),
      (45, [.ifStatement]),
      (43, [.returnStatement]),
      (46, [.functionCall]),
      (185, [.branchStatements])]

/-- State 156. -/
def row156 : Row where
  lexStart := 126
  actions := [
      ([.reduce .ifStatement 4 0], [.identifier, .kwEnd, .kwIf, .kwElse, .kwReturn]),
      ([.shiftExtra], [.comment])]

/-- State 157. -/
def row157 : Row where
  lexStart := 140
  actions := [
      ([.reduce .conditionalStatement 3 24], [.rparen, .kwThen, .kwOr]),
      ([.shift 103], [.equal]),
      ([.shift 104], [.notEqual]),
      ([.shift 105], [.less]),
      ([.shift 106], [.greater]),
      ([.shift 107], [.lessEqual]),
      ([.shift 108], [.greaterEqual]),
      ([.shift 101], [.kwAnd]),
      ([.shiftExtra], [.comment])]
  gotos := [
      (95, [.orOperator]),
      (96, [.andOperator]),
      (98, [.orKeyword]),
      (99, [.andKeyword]),
      (97, [.relationalOperator]),
      (102, [.relationalOperators])]

/-- State 158. -/
def row158 : Row where
  lexStart := 140
  actions := [
      ([.reduce .conditionalStatement 3 24], [.rparen, .kwThen, .kwOr, .kwAnd]),
      ([.shift 103], [.equal]),
      ([.shift 104], [.notEqual]),
      ([.shift 105], [.less]),
      ([.shift 106], [.greater]),
      ([.shift 107], [.lessEqual]),
      ([.shift 108], [.greaterEqual]),
      ([.shiftExtra], [.comment])]
  gotos := [
      (95, [.orOperator]),
      (96, [.andOperator]),
      (98, [.orKeyword]),
      (99, [.andKeyword]),
      (97, [.relationalOperator]),
      (102, [.relationalOperators])]

/-- State 159. -/
def row159 : Row where
  lexStart := 140
  actions := [
      ([.reduce .conditionalStatement 3 24], [
        .rparen, .equal, .notEqual, .less, .greater, .lessEqual, .greaterEqual, .kwThen, .kwOr,
        .kwAnd]),
      ([.shiftExtra], [.comment])]
  gotos := [
      (95, [.orOperator]),
      (96, [.andOperator]),
      (98, [.orKeyword]),
      (99, [.andKeyword]),
      (97, [.relationalOperator]),
      (102, [.relationalOperators])]

/-- State 160. -/
def row160 : Row where
  lexStart := 136
  actions := [
      ([.reduce .expression 3 17], [
        .rparen, .comma, .equal, .semicolon, .notEqual, .less, .greater, .lessEqual,
        .greaterEqual, .kwThen, .kwBitand, .kwBitor, .kwBitxor, .kwOr, .kwAnd]),
      ([.shift 115], [.plus]),
      ([.shift 116], [.minus]),
      ([.shift 117], [.star]),
      ([.shift 118], [.slash]),
      ([.shift 119], [.kwMod]),
      ([.shiftExtra], [.comment])]
  gotos := [
      (109, [.bitOperator]),
      (110, [.additiveOperator]),
      (111, [.multiplicativeOperator]),
      (113, [.additiveSymbol]),
      (114, [.multiplicativeSymbol]),
      (112, [.bitOperators])]

/-- State 161. -/
def row161 : Row where
  lexStart := 136
  actions := [
      ([.reduce .expression 3 17], [
        .rparen, .comma, .equal, .semicolon, .plus, .minus, .notEqual, .less, .greater,
        .lessEqual, .greaterEqual, .kwThen, .kwBitand, .kwBitor, .kwBitxor, .kwOr, .kwAnd]),
      ([.shift 117], [.star]),
      ([.shift 118], [.slash]),
      ([.shift 119], [.kwMod]),
      ([.shiftExtra], [.comment])]
  gotos := [
      (109, [.bitOperator]),
      (110, [.additiveOperator]),
      (111, [.multiplicativeOperator]),
      (113, [.additiveSymbol]),
      (114, [.multiplicativeSymbol]),
      (112, [.bitOperators])]

/-- State 162. -/
def row162 : Row where
  lexStart := 136
  actions := [
      ([.reduce .expression 3 17], [
        .rparen, .comma, .equal, .semicolon, .plus, .minus, .star, .slash, .notEqual, .less,
        .greater, .lessEqual, .greaterEqual, .kwThen, .kwMod, .kwBitand, .kwBitor, .kwBitxor,
        .kwOr, .kwAnd]),
      ([.shiftExtra], [.comment])]
  gotos := [
      (109, [.bitOperator]),
      (110, [.additiveOperator]),
      (111, [.multiplicativeOperator]),
      (113, [.additiveSymbol]),
      (114, [.multiplicativeSymbol]),
      (112, [.bitOperators])]

/-- State 163. -/
def row163 : Row where
  lexStart := 136
  actions := [
      ([.reduce .expressionAtom 3 0], [
        .rparen, .comma, .equal, .semicolon, .plus, .minus, .star, .slash, .notEqual, .less,
        .greater, .lessEqual, .greaterEqual, .kwThen, .kwMod, .kwBitand, .kwBitor, .kwBitxor,
        .kwOr, .kwAnd]),
      ([.shiftExtra], [.comment])]

/-- State 164. -/
def row164 : Row where
  lexStart := 140
  actions := [
      ([.reduce .conditionalGroup 3 0], [
        .rparen, .equal, .notEqual, .less, .greater, .lessEqual, .greaterEqual, .kwThen, .kwOr,
        .kwAnd]),
      ([.shiftExtra], [.comment])]

/-- State 165. -/
def row165 : Row where
  lexStart := 140
  actions := [
      ([.shift 187], [.rparen]),
      ([.shift 103], [.equal]),
      ([.shift 104], [.notEqual]),
      ([.shift 105], [.less]),
      ([.shift 106], [.greater]),
      ([.shift 107], [.lessEqual]),
      ([.shift 108], [.greaterEqual]),
      ([.shift 100], [.kwOr]),
      ([.shift 101], [.kwAnd]),
      ([.shiftExtra], [.comment])]
  gotos := [
      (95, [.orOperator]),
      (96, [.andOperator]),
      (98, [.orKeyword]),
      (99, [.andKeyword]),
      (97, [.relationalOperator]),
      (102, [.relationalOperators])]

/-- State 166. -/
def row166 : Row where
  lexStart := 140
  actions := [
      ([.reduce .conditionalAtom 2 0], [
        .rparen, .equal, .notEqual, .less, .greater, .lessEqual, .greaterEqual, .kwThen, .kwOr,
        .kwAnd]),
      ([.shiftExtra], [.comment])]

/-- State 167. -/
def row167 : Row where
  lexStart := 143
  actions := [
      ([.shift 189], [.rparen]),
      ([.shift 18], [.kwInt]),
      ([.shift 19], [.kwString]),
      ([.shift 20], [.kwReal]),
      ([.shift 21], [.kwQuality]),
      ([.shift 22], [.kwTimestamp]),
      ([.shift 23], [.kwBool]),
      ([.shift 24], [.kwObject]),
      ([.shift 25], [.kwLong]),
      ([.shiftExtra], [.comment])]
  gotos := [
      (138, [.type]),
      (140, [.parameterType]),
      (188, [.functionParameters]),
      (139, [.functionParameter])]

/-- State 168. -/
def row168 : Row where
  lexStart := 149
  actions := [
      ([.shift 190], [.rparen]),
      ([.shiftExtra], [.comment])]

/-- State 169. -/
def row169 : Row where
  lexStart := 150
  actions := [
      ([.shift 191], [.lineFeed]),
      ([.shiftExtra], [.comment])]

/-- State 170. -/
def row170 : Row where
  lexStart := 149
  actions := [
      ([.shift 192], [.rparen]),
      ([.shiftExtra], [.comment])]

/-- State 171. -/
def row171 : Row where
  lexStart := 150
  actions := [
      ([.shift 193], [.lineFeed]),
      ([.shiftExtra], [.comment])]

/-- State 172. -/
def row172 : Row where
  lexStart := 150
  actions := [
      ([.shift 194], [.lineFeed]),
      ([.shiftExtra], [.comment])]

/-- State 173. -/
def row173 : Row where
  lexStart := 126
  actions := [
      ([.reduce .functionDefinition 5 8], [
        .identifier, .kwEnd, .kwInt, .kwString, .kwReal, .kwQuality, .kwTimestamp, .kwBool,
        .kwObject, .kwLong, .kwIf, .kwReturn]),
      ([.shiftExtra], [.comment])]

/-- State 174. -/
def row174 : Row where
  lexStart := 152
  actions := [
      ([.reduce .functionParameters 2 0], [.rparen]),
      ([.shift 175], [.comma]),
      ([.shiftExtra], [.comment])]
  gotos := [
      (195, [.furtherParameters])]

/-- State 175. -/
def row175 : Row where
  lexStart := 126
  actions := [
      ([.shift 18], [.kwInt]),
      ([.shift 19], [.kwString]),
      ([.shift 20], [.kwReal]),
      ([.shift 21], [.kwQuality]),
      ([.shift 22], [.kwTimestamp]),
      ([.shift 23], [.kwBool]),
      ([.shift 24], [.kwObject]),
      ([.shift 25], [.kwLong]),
      ([.shiftExtra], [.comment])]
  gotos := [
      (138, [.type]),
      (140, [.parameterType]),
      (196, [.functionParameter])]

/-- State 176. -/
def row176 : Row where
  lexStart := 153
  actions := [
      ([.reduce .functionParameter 2 10], [.rparen, .comma]),
      ([.shift 198], [.equal]),
      ([.shiftExtra], [.comment])]
  gotos := [
      (197, [.defaultValue])]

/-- State 177. -/
def row177 : Row where
  lexStart := 144
  actions := [
      ([.reduce .furtherVariables 3 11], [.comma, .semicolon]),
      ([.shiftExtra], [.comment])]

/-- State 178. -/
def row178 : Row where
  lexStart := 126
  actions := [
      ([.reduce .variableDeclaration 5 13], [
        .identifier, .kwEnd, .kwInt, .kwString, .kwReal, .kwQuality, .kwTimestamp, .kwBool,
        .kwObject, .kwLong, .kwIf, .kwReturn]),
      ([.shiftExtra], [.comment])]

/-- State 179. -/
def row179 : Row where
  lexStart := 152
  actions := [
      ([.reduce .furtherArguments 2 0], [.rparen]),
      ([.reduce .furtherArguments 2 0, .shiftRepeat 151], [.comma]),
      ([.shiftExtra], [.comment])]
  gotos := [
      (179, [.furtherArguments])]

/-- State 180. -/
def row180 : Row where
  lexStart := 136
  actions := [
      ([.reduce .functionCall 5 20], [
        .rparen, .comma, .equal, .semicolon, .plus, .minus, .star, .slash, .notEqual, .less,
        .greater, .lessEqual, .greaterEqual, .kwThen, .kwMod, .kwBitand, .kwBitor, .kwBitxor,
        .kwOr, .kwAnd]),
      ([.shiftExtra], [.comment])]

/-- State 181. -/
def row181 : Row where
  lexStart := 146
  actions := [
      ([.reduce .furtherArguments 2 0], [.rparen, .comma]),
      ([.shift 115], [.plus]),
      ([.shift 116], [.minus]),
      ([.shift 117], [.star]),
      ([.shift 118], [.slash]),
      ([.shift 119], [.kwMod]),
      ([.shift 120], [.kwBitand]),
      ([.shift 121], [.kwBitor]),
      ([.shift 122], [.kwBitxor]),
      ([.shiftExtra], [.comment])]
  gotos := [
      (109, [.bitOperator]),
      (110, [.additiveOperator]),
      (111, [.multiplicativeOperator]),
      (113, [.additiveSymbol]),
      (114, [.multiplicativeSymbol]),
      (112, [.bitOperators])]

/-- State 182. -/
def row182 : Row where
  lexStart := 126
  actions := [
      ([.reduce .branchStatements 2 0, .shiftRepeat 47], [.identifier]),
      ([.reduce .branchStatements 2 0], [.kwEnd, .kwElse]),
      ([.reduce .branchStatements 2 0, .shiftRepeat 48], [.kwIf]),
      ([.reduce .branchStatements 2 0, .shiftRepeat 49], [.kwReturn]),
      ([.shiftExtra], [.comment])]
  gotos := [
      (154, [.bodyStatement]),
      (42, [.statementOrExpression]),
      (44, [.variableAssignment]),
      (45, [.ifStatement]),
      (43, [.returnStatement]),
      (46, [.functionCall]),
      (182, [.branchStatements])]

/-- State 183. -/
def row183 : Row where
  lexStart := 126
  actions := [
      ([.shift 47], [.identifier]),
      ([.shift 200], [.kwEnd]),
      ([.shift 48], [.kwIf]),
      ([.shift 49], [.kwReturn]),
      ([.shiftExtra], [.comment])]
  gotos := [
      (154, [.bodyStatement]),
      (42, [.statementOrExpression]),
      (44, [.variableAssignment]),
      (45, [.ifStatement]),
      (43, [.returnStatement]),
      (46, [.functionCall]),
      (199, [.branchStatements])]

/-- State 184. -/
def row184 : Row where
  lexStart := 126
  actions := [
      ([.reduce .ifStatement 5 0], [.identifier, .kwEnd, .kwIf, .kwElse, .kwReturn]),
      ([.shiftExtra], [.comment])]

/-- State 185. -/
def row185 : Row where
  lexStart := 126
  actions := [
      ([.shift 47], [.identifier]),
      ([.shift 201], [.kwEnd]),
      ([.shift 48], [.kwIf]),
      ([.shift 49], [.kwReturn]),
      ([.shiftExtra], [.comment])]
  gotos := [
      (154, [.bodyStatement]),
      (42, [.statementOrExpression]),
      (44, [.variableAssignment]),
      (45, [.ifStatement]),
      (43, [.returnStatement]),
      (46, [.functionCall]),
      (182, [.branchStatements])]

/-- State 186. -/
def row186 : Row where
  lexStart := 126
  actions := [
      ([.reduce .ifStatement 5 0], [.identifier, .kwEnd, .kwIf, .kwElse, .kwReturn]),
      ([.shiftExtra], [.comment])]

/-- State 187. -/
def row187 : Row where
  lexStart := 140
  actions := [
      ([.reduce .conditionalAtom 3 0], [
        .rparen, .equal, .notEqual, .less, .greater, .lessEqual, .greaterEqual, .kwThen, .kwOr,
        .kwAnd]),
      ([.shiftExtra], [.comment])]

/-- State 188. -/
def row188 : Row where
  lexStart := 149
  actions := [
      ([.shift 202], [.rparen]),
      ([.shiftExtra], [.comment])]

/-- State 189. -/
def row189 : Row where
  lexStart := 150
  actions := [
      ([.shift 203], [.lineFeed]),
      ([.shiftExtra], [.comment])]

/-- State 190. -/
def row190 : Row where
  lexStart := 150
  actions := [
      ([.shift 204], [.lineFeed]),
      ([.shiftExtra], [.comment])]

/-- State 191. -/
def row191 : Row where
  lexStart := 126
  actions := [
      ([.reduce .functionDefinition 6 4], [
        .identifier, .kwEnd, .kwInt, .kwString, .kwReal, .kwQuality, .kwTimestamp, .kwBool,
        .kwObject, .kwLong, .kwIf, .kwReturn]),
      ([.shiftExtra], [.comment])]

/-- State 192. -/
def row192 : Row where
  lexStart := 150
  actions := [
      ([.shift 205], [.lineFeed]),
      ([.shiftExtra], [.comment])]

/-- State 193. -/
def row193 : Row where
  lexStart := 126
  actions := [
      ([.reduce .functionDefinition 6 6], [
        .identifier, .kwEnd, .kwInt, .kwString, .kwReal, .kwQuality, .kwTimestamp, .kwBool,
        .kwObject, .kwLong, .kwIf, .kwReturn]),
      ([.shiftExtra], [.comment])]

/-- State 194. -/
def row194 : Row where
  lexStart := 126
  actions := [
      ([.reduce .functionDefinition 6 7], [
        .identifier, .kwEnd, .kwInt, .kwString, .kwReal, .kwQuality, .kwTimestamp, .kwBool,
        .kwObject, .kwLong, .kwIf, .kwReturn]),
      ([.shiftExtra], [.comment])]

/-- State 195. -/
def row195 : Row where
  lexStart := 152
  actions := [
      ([.reduce .furtherParameters 2 0], [.rparen]),
      ([.reduce .furtherParameters 2 0, .shiftRepeat 175], [.comma]),
      ([.shiftExtra], [.comment])]
  gotos := [
      (195, [.furtherParameters])]

/-- State 196. -/
def row196 : Row where
  lexStart := 152
  actions := [
      ([.reduce .furtherParameters 2 0], [.rparen, .comma]),
      ([.shiftExtra], [.comment])]

/-- State 197. -/
def row197 : Row where
  lexStart := 152
  actions := [
      ([.reduce .functionParameter 3 9], [.rparen, .comma]),
      ([.shiftExtra], [.comment])]

/-- State 198. -/
def row198 : Row where
  lexStart := 154
  actions := [
      ([.shift 206], [.number]),
      ([.shift 207], [.string]),
      ([.shiftExtra], [.comment])]

/-- State 199. -/
def row199 : Row where
  lexStart := 126
  actions := [
      ([.shift 47], [.identifier]),
      ([.shift 208], [.kwEnd]),
      ([.shift 48], [.kwIf]),
      ([.shift 49], [.kwReturn]),
      ([.shiftExtra], [.comment])]
  gotos := [
      (154, [.bodyStatement]),
      (42, [.statementOrExpression]),
      (44, [.variableAssignment]),
      (45, [.ifStatement]),
      (43, [.returnStatement]),
      (46, [.functionCall]),
      (182, [.branchStatements])]

/-- State 200. -/
def row200 : Row where
  lexStart := 126
  actions := [
      ([.reduce .ifStatement 6 0], [.identifier, .kwEnd, .kwIf, .kwElse, .kwReturn]),
      ([.shiftExtra], [.comment])]

/-- State 201. -/
def row201 : Row where
  lexStart := 126
  actions := [
      ([.reduce .ifStatement 6 0], [.identifier, .kwEnd, .kwIf, .kwElse, .kwReturn]),
      ([.shiftExtra], [.comment])]

/-- State 202. -/
def row202 : Row where
  lexStart := 150
  actions := [
      ([.shift 209], [.lineFeed]),
      ([.shiftExtra], [.comment])]

/-- State 203. -/
def row203 : Row where
  lexStart := 126
  actions := [
      ([.reduce .functionDefinition 7 2], [
        .identifier, .kwEnd, .kwInt, .kwString, .kwReal, .kwQuality, .kwTimestamp, .kwBool,
        .kwObject, .kwLong, .kwIf, .kwReturn]),
      ([.shiftExtra], [.comment])]

/-- State 204. -/
def row204 : Row where
  lexStart := 126
  actions := [
      ([.reduce .functionDefinition 7 3], [
        .identifier, .kwEnd, .kwInt, .kwString, .kwReal, .kwQuality, .kwTimestamp, .kwBool,
        .kwObject, .kwLong, .kwIf, .kwReturn]),
      ([.shiftExtra], [.comment])]

/-- State 205. -/
def row205 : Row where
  lexStart := 126
  actions := [
      ([.reduce .functionDefinition 7 5], [
        .identifier, .kwEnd, .kwInt, .kwString, .kwReal, .kwQuality, .kwTimestamp, .kwBool,
        .kwObject, .kwLong, .kwIf, .kwReturn]),
      ([.shiftExtra], [.comment])]

/-- State 206. -/
def row206 : Row where
  lexStart := 152
  actions := [
      ([.reduce .defaultValue 2 0], [.rparen, .comma]),
      ([.shiftExtra], [.comment])]

/-- State 207. -/
def row207 : Row where
  lexStart := 152
  actions := [
      ([.reduce .defaultValue 2 0], [.rparen, .comma]),
      ([.shiftExtra], [.comment])]

/-- State 208. -/
def row208 : Row where
  lexStart := 126
  actions := [
      ([.reduce .ifStatement 7 0], [.identifier, .kwEnd, .kwIf, .kwElse, .kwReturn]),
      ([.shiftExtra], [.comment])]

/-- State 209. -/
def row209 : Row where
  lexStart := 126
  actions := [
      ([.reduce .functionDefinition 8 1], [
        .identifier, .kwEnd, .kwInt, .kwString, .kwReal, .kwQuality, .kwTimestamp, .kwBool,
        .kwObject, .kwLong, .kwIf, .kwReturn]),
      ([.shiftExtra], [.comment])]

/-- The rows of states 150 to 209, in order. -/
def rowsCondition : List Row :=
  [
    row150, row151, row152, row153, row154, row155, row156, row157, row158, row159, row160,
    row161, row162, row163, row164, row165, row166, row167, row168, row169, row170, row171,
    row172, row173, row174, row175, row176, row177, row178, row179, row180, row181, row182,
    row183, row184, row185, row186, row187, row188, row189, row190, row191, row192, row193,
    row194, row195, row196, row197, row198, row199, row200, row201, row202, row203, row204,
    row205, row206, row207, row208, row209 ]

end Cicode.Grammar
