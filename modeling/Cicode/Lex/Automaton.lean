import Cicode.Grammar.LexState
import Cicode.Lex.Cursor

/-!
# Running a lexical automaton

From a cursor and a start state the automaton follows its edges as long as one fits. The token is
the one of the last accepting state that was passed.
-/

namespace Cicode.Lex

open Grammar Text

/-- The outcome of running an automaton. -/
structure Scan where
  /-- Where the token begins, after what was skipped. -/
  start : Cursor
  /-- The longest token met, with its end. -/
  token : Option (Symbol × Extent)
  /-- Where no edge fitted any more. -/
  stop : Cursor
  deriving Inhabited

/-- The token of a state, if it has one, replaces the token met before. -/
def LexState.tokenAt (state : LexState) (position : Extent) (before : Option (Symbol × Extent)) :
    Option (Symbol × Extent) :=
  match state.accepts with
  | some symbol => some (symbol, position)
  | none => before

/-- Run the automaton from a state over the remaining text. -/
def runAutomaton (states : Array LexState) (state : Nat) (start : Cursor)
    (token : Option (Symbol × Extent)) (position : Extent) : List Char → Scan
  | [] =>
    let here := (states[state]?).getD {}
    let token := LexState.tokenAt here position token
    let token := match here.atEnd with
      | some target => LexState.tokenAt ((states[target]?).getD {}) position token
      | none => token
    ⟨start, token, ⟨[], position⟩⟩
  | c :: rest =>
    let here := (states[state]?).getD {}
    let token := LexState.tokenAt here position token
    match here.edgeOn c with
    | none => ⟨start, token, ⟨c :: rest, position⟩⟩
    | some edge =>
      let after := position + Extent.ofChar c
      let start := if edge.skips then ⟨rest, after⟩ else start
      runAutomaton states edge.target start token after rest

/-- Run the automaton from a start state at a cursor. -/
def scan (states : Array LexState) (state : Nat) (cursor : Cursor) : Scan :=
  runAutomaton states state cursor none cursor.position cursor.rest

end Cicode.Lex
