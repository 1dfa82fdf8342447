import Cicode.Grammar.Table
import Cicode.Lex.Automaton
import Cicode.Lex.DocBody

/-!
# Reading the next token

A parser state reads its next token in its own lexical state, so that the same characters may be
different tokens in different places. Where that fails, the token is read in the lexical state of
recovery, which knows all tokens; and where that fails too, characters are passed over until a
token begins, and what was passed over becomes one unreadable piece. A word is looked up among the
keywords and becomes one where the state has a use for it or reserves it.
-/

namespace Cicode.Lex

open Grammar Text

/-- A token with what precedes it. -/
structure Token where
  /-- The terminal, or `Symbol.error` for characters that begin no token. -/
  symbol : Symbol
  /-- The extent between the place where reading began and the token. -/
  padding : Extent
  /-- The extent of the token itself. -/
  size : Extent
  /-- Whether a keyword stands at its beginning. -/
  keyword : Bool := false
  deriving DecidableEq, Repr, Inhabited

/-- The symbol of a word: a keyword if the parser state can use it or reserves it. The second
component says whether a keyword was found at the beginning of the word. -/
def wordSymbol (state : StateId) (start : Cursor) (finish : Extent) : Symbol × Bool :=
  match (scan keywordAutomaton 0 start).token with
  | none => (.identifier, false)
  | some (keyword, keywordEnd) =>
    if keywordEnd.bytes == finish.bytes && (hasActions state keyword || reserves state keyword)
    then (keyword, true) else (.identifier, true)

/-- The token that was read from `start` to `finish`, after padding from `position`. -/
def Token.ofScan (state : StateId) (position : Extent) (start : Cursor) (symbol : Symbol)
    (finish : Extent) : Token :=
  let (symbol, keyword) :=
    if symbol == .identifier then wordSymbol state start finish else (symbol, false)
  ⟨symbol, start.position - position, finish - start.position, keyword⟩

/-- Where unreadable text ends: the first place at or after the cursor where a token can be read.
`reached` is the place up to which the text is already known to be unreadable. -/
def unreadableEnd : Nat → Extent → Cursor → Extent
  | 0, reached, _ => reached
  | fuel + 1, reached, cursor =>
    let found := scan lexStates 0 cursor
    if found.token.isSome then reached
    else if found.stop.position.bytes == reached.bytes then
      if found.stop.atEnd then reached
      else unreadableEnd fuel found.stop.next.position found.stop.next
    else unreadableEnd fuel found.stop.position found.stop

/-- Read a token in the lexical state of recovery, passing over what cannot be read. -/
def recoveryToken (state : StateId) (cursor : Cursor) : Token :=
  let found := scan lexStates 0 cursor
  match found.token with
  | some (symbol, finish) => Token.ofScan state cursor.position found.start symbol finish
  | none =>
    let start := found.start.position
    let finish := unreadableEnd (2 * cursor.rest.length + 2) start cursor
    ⟨.error, start - cursor.position, finish - start, false⟩

/-- The next token in a parser state. -/
def nextToken (source : Source) (state : StateId) (position : Extent) : Token :=
  let cursor := source.cursorAt position
  let body := (docBodyAt state).bind (scanDocBody · cursor)
  match body with
  | some (symbol, finish) => ⟨symbol, 0, finish - position, false⟩
  | none =>
    let found := scan lexStates (lexStartAt state) cursor
    match found.token with
    | some (symbol, finish) => Token.ofScan state position found.start symbol finish
    | none => recoveryToken state cursor

end Cicode.Lex
