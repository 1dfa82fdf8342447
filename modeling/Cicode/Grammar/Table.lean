import Cicode.Grammar.RowsHeader
import Cicode.Grammar.RowsBody
import Cicode.Grammar.RowsExpression
import Cicode.Grammar.RowsCondition
import Cicode.Grammar.LexisLow
import Cicode.Grammar.LexisHigh
import Cicode.Grammar.Keywords

/-!
# The parsing table

The rows of all states and the two lexical automata as arrays, and the look-ups the parser makes.
A look-up goes through a dense array that is computed once from the rows, so that it costs two
steps whatever the size of a row.
-/

namespace Cicode.Grammar

/-- The rows of the parsing table in the order of their states. -/
@[irreducible] def rowList : List Row := rowsHeader ++ rowsBody ++ rowsExpression ++ rowsCondition

/-- The rows of the parsing table, by state. -/
@[irreducible] def rows : Array Row := rowList.toArray

/-- The states of the lexical automaton, by number. -/
@[irreducible] def lexStates : Array LexState := (lexStatesLow ++ lexStatesHigh).toArray

/-- The states of the keyword automaton, by number. -/
@[irreducible] def keywordAutomaton : Array LexState := keywordStates.toArray

/-- The actions of each state on each terminal. -/
@[irreducible] def actionTable : Array (Array (List Action)) :=
  (rowList.map fun row => (Symbol.terminals.map row.actionsOn).toArray).toArray

/-- The state that follows each nonterminal in each state. -/
@[irreducible] def gotoTable : Array (Array StateId) :=
  (rowList.map fun row => (Symbol.nonterminals.map row.gotoOn).toArray).toArray

/-- The actions of a state on a terminal. Symbols that are no terminals have none. -/
def actionsAt (state : StateId) (symbol : Symbol) : List Action :=
  ((actionTable[state]?).bind (·[symbol.index]?)).getD []

/-- The state that follows a nonterminal, `0` if there is none. -/
def gotoAt (state : StateId) (symbol : Symbol) : StateId :=
  ((gotoTable[state]?).bind (·[symbol.index - Symbol.terminalCount]?)).getD 0

/-- Whether a state has any action on a terminal. -/
def hasActions (state : StateId) (symbol : Symbol) : Bool := !(actionsAt state symbol).isEmpty

/-- Whether a state begins its actions on a terminal with a reduction. -/
def startsWithReduce (state : StateId) (symbol : Symbol) : Bool :=
  match actionsAt state symbol with
  | .reduce .. :: _ => true
  | _ => false

/-- Whether a state takes a terminal as an extra. -/
def takesAsExtra (state : StateId) (symbol : Symbol) : Bool :=
  (actionsAt state symbol).getLast? == some .shiftExtra

/-- The state after a symbol has been put on the stack, `0` if it cannot be. -/
def nextState (state : StateId) (symbol : Symbol) : StateId :=
  if symbol.isSkipped then 0
  else if symbol.isTerminal then
    match (actionsAt state symbol).getLast? with
    | some (.shift target) => target
    | some (.shiftRepeat target) => target
    | some .shiftExtra => state
    | _ => 0
  else gotoAt state symbol

/-- The lexical state in which a parser state reads its next token. -/
def lexStartAt (state : StateId) : Nat := ((rows[state]?).map (·.lexStart)).getD 0

/-- The documentation tag whose body may come next in a parser state. -/
def docBodyAt (state : StateId) : Option DocTag := (rows[state]?).bind (·.docBody)

/-- The keywords, none of which may serve as an identifier. -/
def reservedWords : List Symbol :=
  [.kwEnd, .kwFunction, .kwPublic, .kwPrivate, .kwInt, .kwString, .kwReal, .kwQuality,
    .kwTimestamp, .kwBool, .kwObject, .kwLong, .kwVoid, .kwIf, .kwThen, .kwElse, .kwReturn,
    .kwMod, .kwBitand, .kwBitor, .kwBitxor, .kwOr, .kwAnd, .kwNot]

/-- Every state but the recovery state reserves the keywords. -/
def reserves (state : StateId) (symbol : Symbol) : Bool :=
  state != 0 && reservedWords.contains symbol

end Cicode.Grammar
