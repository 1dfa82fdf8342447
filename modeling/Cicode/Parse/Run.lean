import Cicode.Parse.Recovery

/-!
# Parsing a text

The parser advances each version of the stack by a token, sorts the versions, and repeats until
the best tree of the whole text is known. A text without errors is parsed by a single version and
never reaches recovery. Every text has a tree.
-/

namespace Cicode.Parse

open Grammar Text Cicode.Lex

namespace Parser

/-! ## Advancing a version -/

/-- What became of a version while the actions on a token were performed. -/
inductive Turn where
  /-- The token was used, or the version has ended. -/
  | done (parser : Parser)
  /-- The version was reduced, and this is the first version made by the last reduction that made
  one; there is none if all were merged into older versions. -/
  | reduced (parser : Parser) (made : Option Version)
  /-- There was no action. -/
  | stuck (parser : Parser)

/-- Perform the actions on a token. `reduced` says whether a reduction came before, and `made`
which version it made. -/
def act (version : Version) (lookahead : Subtree) :
    List Action → Bool → Option Version → Parser → Turn
  | [], true, made, parser => .reduced parser made
  | [], false, _, parser => .stuck parser
  | action :: rest, reduced, made, parser =>
    match action with
    | .shiftRepeat _ => act version lookahead rest reduced made parser
    | .shift target =>
      let token := lookahead.withExtra false
      .done { parser with stack := parser.stack.push version (some token) target }
    | .shiftExtra =>
      let token := lookahead.withExtra true
      let state := parser.stack.state version
      .done { parser with stack := parser.stack.push version (some token) state }
    | .reduce symbol count production =>
      let (stack, created) := parser.stack.reduce version symbol count production
      act version lookahead rest true (created <|> made) { parser with stack }
    | .accept => .done (parser.accept version lookahead)
    | .recover => .done (parser.recover version lookahead)

/-- Bring a version past a token: reduce as long as the table says so, then use the token. A
keyword that has no place here may still be a word. A version that cannot use the token waits;
the recovery state uses every token, so there this happens on unreadable characters only. -/
def consume (version : Version) : Nat → Subtree → Parser → Parser
  | 0, _, parser => { parser with stack := parser.stack.halt version }
  | fuel + 1, lookahead, parser =>
    let state := parser.stack.state version
    match act version lookahead (actionsAt state lookahead.symbol) false none parser with
    | .done parser => parser
    | .reduced parser (some source) =>
      consume version fuel lookahead { parser with stack := parser.stack.renumber source version }
    | .reduced parser none => { parser with stack := parser.stack.halt version }
    | .stuck parser =>
      if lookahead.facts.keyword && lookahead.symbol != .identifier &&
          !reserves state lookahead.symbol && hasActions state .identifier then
        consume version fuel (lookahead.withSymbol .identifier) parser
      else { parser with stack := parser.stack.pause version lookahead }

/-- A bound on the reductions before a token: each of them shortens the stack or climbs one of the
grammar's chains of single symbols. -/
def reductionBound (parser : Parser) : Nat := 64 * (parser.stack.nodes.size + 1)

/-- Advance a version by one token. -/
def advance (parser : Parser) (version : Version) : Parser :=
  let state := parser.stack.state version
  let token := nextToken parser.source state (parser.stack.position version)
  consume version parser.reductionBound (.ofToken token) parser

/-- Advance a version until it has passed the place that was reached before. -/
def advancePast (version : Version) : Nat → Nat → Parser → Nat × Parser
  | 0, reached, parser => (reached, parser)
  | fuel + 1, reached, parser =>
    if parser.stack.isActive version then
      let parser := parser.advance version
      let position := (parser.stack.position version).bytes
      if position > reached || (version > 0 && position == reached) then (position, parser)
      else advancePast version fuel reached parser
    else (reached, parser)

/-- Advance all versions from a number on, those included that come into being meanwhile. -/
def advanceAll : Nat → Nat → Version → Nat → Parser → Nat × Parser
  | 0, _, _, reached, parser => (reached, parser)
  | fuel + 1, steps, version, reached, parser =>
    if version < parser.stack.versionCount then
      let (reached, parser) := advancePast version steps reached parser
      advanceAll fuel steps (version + 1) reached parser
    else (reached, parser)

/-! ## Sorting the versions -/

end Parser

namespace Stack

/-- Compare a version with those before it, from number `other` on. Returns the stack and the
number at which the version, or its place, is now. -/
def sortIn (own : Standing) : Nat → Version → Version → Stack → Stack × Version
  | 0, version, _, stack => (stack, version)
  | fuel + 1, version, other, stack =>
    if other < version then
      let stack := stack.settle other
      match (stack.standing other).compare own with
      | .takeLeft => (stack.remove version, version - 1)
      | .preferLeft | .even =>
        if stack.canMerge other version then (stack.merge other version, version - 1)
        else sortIn own fuel version (other + 1) stack
      | .preferRight =>
        if stack.canMerge other version then (stack.merge other version, version - 1)
        else sortIn own fuel version (other + 1) (stack.swap version other)
      | .takeRight => sortIn own fuel (version - 1) other (stack.remove other)
    else (stack, version)

/-- Drop the versions that are halted or clearly worse than another, merge those that are alike,
and order the rest. Also returns the least price of a version that is not in error. -/
def sort : Nat → Version → Option Nat → Stack → Stack × Option Nat
  | 0, _, least, stack => (stack, least)
  | fuel + 1, version, least, stack =>
    if version < stack.versionCount then
      if stack.isHalted version then sort fuel version least (stack.remove version)
      else
        let stack := stack.settle version
        let own := stack.standing version
        let least := if own.inError then least else
          some (match least with
            | none => own.cost
            | some l => min l own.cost)
        let (stack, place) := sortIn own (version + 1) version 0 stack
        sort fuel (place + 1) least stack
    else (stack, least)

end Stack

namespace Parser

/-- Let the first waiting version handle its error if no version before it takes part, and drop
the other waiting versions. Returns the price of the version whose error was handled. -/
def resumePaused : Nat → Version → Nat → Bool → Option Nat → Parser → Parser × Option Nat
  | 0, _, _, _, least, parser => (parser, least)
  | fuel + 1, version, count, unpaused, least, parser =>
    if version < count then
      match (parser.stack.head version).status with
      | .paused lookahead =>
        if !unpaused && parser.acceptCount < maxVersions then
          let cost := parser.stack.errorCost version
          let parser := { parser with stack := parser.stack.resume version }
          let parser := parser.handleError version lookahead
          resumePaused fuel (version + 1) count true (some cost) parser
        else
          resumePaused fuel version (count - 1) unpaused least
            { parser with stack := parser.stack.remove version }
      | _ => resumePaused fuel (version + 1) count true least parser
    else (parser, least)

/-- Tidy up after all versions have advanced. Returns the least price of a version worth
following. -/
def condense (parser : Parser) : Parser × Option Nat :=
  let count := parser.stack.versionCount
  let (stack, least) := parser.stack.sort (count + 1) 0 none
  let stack := { stack with heads := stack.heads.take maxVersions }
  let count := stack.versionCount
  resumePaused (count + 1) 0 count false least { parser with stack }

/-! ## The whole text -/

/-- Whether the finished tree costs less than every version still followed. -/
def isSettled (parser : Parser) (least : Option Nat) : Bool :=
  match parser.finished with
  | none => false
  | some tree => match least with
    | none => true
    | some cost => tree.errorCost < cost

/-- Advance and tidy up until the best tree is known. -/
def run : Nat → Nat → Parser → Parser
  | 0, _, parser => parser
  | fuel + 1, reached, parser =>
    let (reached, parser) := advanceAll (fuel + 1) (fuel + 1) 0 reached parser
    let count := parser.stack.versionCount
    let (parser, least) := parser.condense
    if parser.isSettled least || count == 0 then parser
    else run fuel reached parser

end Parser

/-- A bound on the rounds of a parse: in each of them some version passes a token, and versions
fall back only to repair an error. -/
def roundBound (source : Source) : Nat := 64 * (source.size + 16)

/-- The tree of a text that is given up: all of it is skipped as one unreadable piece. -/
def unread (chars : List Char) : Subtree :=
  .ofChildren .error 0 [.ofToken { symbol := .error, padding := 0, size := Extent.of chars }]

/-- The tree of a text. A text for which no version comes to its end in time is given up. -/
def parse (chars : List Char) : Subtree :=
  let source := Source.ofList chars
  let parser := Parser.run (roundBound source) 0 { source, stack := .initial }
  parser.finished.getD (unread chars)

end Cicode.Parse
