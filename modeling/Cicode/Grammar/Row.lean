import Cicode.Grammar.Symbol

/-!
# Rows of the parsing table

The parser is a finite control over a stack of states. For each state a `Row` says which lexical
state reads the next token, what to do on each terminal, and which state follows once a
nonterminal has been recognised. A terminal that a row does not list has no action in that state.
-/

namespace Cicode.Grammar

/-- The number of a parser state. State `0` is the recovery state, state `1` the initial one. -/
abbrev StateId := Nat

/-- The documentation tags, whose bodies are free text up to the closing tag. -/
inductive DocTag where
  | summary | param | returns
  deriving DecidableEq, Repr, Inhabited

/-- What the parser does on a terminal. -/
inductive Action where
  /-- Put the terminal on the stack and go to the state. -/
  | shift (target : StateId)
  /-- A continuation of a repetition, already covered by the reduction listed before it. -/
  | shiftRepeat (target : StateId)
  /-- Put the terminal on the stack as an extra, without a change of state. -/
  | shiftExtra
  /-- Replace the topmost `count` subtrees by one of the given symbol and production. -/
  | reduce (symbol : Symbol) (count : Nat) (production : Nat)
  /-- The text is complete. -/
  | accept
  /-- Look for a way to resume after an error. -/
  | recover
  deriving DecidableEq, Repr, Inhabited

/-- One row of the parsing table. -/
structure Row where
  /-- The lexical state in which the next token is read. -/
  lexStart : Nat
  /-- The documentation tag whose body may come next. -/
  docBody : Option DocTag := none
  /-- Groups of terminals with their common actions. -/
  actions : List (List Action × List Symbol)
  /-- Groups of nonterminals with the state that follows them. -/
  gotos : List (StateId × List Symbol) := []
  deriving Repr, Inhabited

namespace Row

/-- The actions on a terminal; none for a terminal that the row does not list. -/
def actionsOn (row : Row) (terminal : Symbol) : List Action :=
  match row.actions.find? (·.2.contains terminal) with
  | some group => group.1
  | none => []

/-- The state after a nonterminal; state `0` for one that the row does not list. -/
def gotoOn (row : Row) (nonterminal : Symbol) : StateId :=
  match row.gotos.find? (·.2.contains nonterminal) with
  | some group => group.1
  | none => 0

end Row

end Cicode.Grammar
