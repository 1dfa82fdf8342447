import Cicode.Grammar.Symbol

/-!
# States of a lexical automaton

A token is read by a deterministic automaton over characters. Each state names the token that is
complete there, if any, and an ordered list of edges: the first edge whose class holds the next
character is taken. A skipping edge leaves the character out of the token.
-/

namespace Cicode.Grammar

/-- A set of characters, given by closed ranges. -/
inductive CharClass where
  /-- A single character. -/
  | one (c : Char)
  /-- The characters of the ranges. -/
  | within (ranges : List (Char × Char))
  /-- The characters in none of the ranges. -/
  | outside (ranges : List (Char × Char))
  deriving DecidableEq, Repr, Inhabited

namespace CharClass

/-- Membership in one of a list of closed ranges. -/
def inRanges (ranges : List (Char × Char)) (c : Char) : Bool :=
  ranges.any fun range => range.1 ≤ c && c ≤ range.2

/-- Membership in a class. -/
def contains : CharClass → Char → Bool
  | .one d, c => c == d
  | .within ranges, c => inRanges ranges c
  | .outside ranges, c => !inRanges ranges c

/-- White space inside a line: every blank character but the line feed. -/
def blankInLine : CharClass :=
  .within [('\t', '\t'), ('\x0b', '\r'), (' ', ' '), ('\xa0', '\xa0'), ('\u1680', '\u1680'),
    ('\u2000', '\u200a'), ('\u2028', '\u2029'), ('\u202f', '\u202f'), ('\u205f', '\u205f'),
    ('\u3000', '\u3000'), ('\ufeff', '\ufeff')]

/-- White space. -/
def blank : CharClass :=
  .within [('\t', '\r'), (' ', ' '), ('\xa0', '\xa0'), ('\u1680', '\u1680'),
    ('\u2000', '\u200a'), ('\u2028', '\u2029'), ('\u202f', '\u202f'), ('\u205f', '\u205f'),
    ('\u3000', '\u3000'), ('\ufeff', '\ufeff')]

/-- The decimal digits. -/
def digit : CharClass := .within [('0', '9')]

/-- Letters and the underscore. -/
def letter : CharClass := .within [('A', 'Z'), ('_', '_'), ('a', 'z')]

/-- Letters, digits and the underscore. -/
def wordChar : CharClass := .within [('0', '9'), ('A', 'Z'), ('_', '_'), ('a', 'z')]

/-- A letter in either case, named by its capital. -/
def letterOf (capital : Char) : CharClass :=
  .within [(capital, capital), (capital.toLower, capital.toLower)]

end CharClass

/-- An edge of the automaton. -/
structure Edge where
  /-- The characters on which the edge is taken. -/
  on : CharClass
  /-- The state it leads to. -/
  target : Nat
  /-- Whether the token begins only after the character. -/
  skips : Bool
  deriving DecidableEq, Repr, Inhabited

namespace Edge

/-- An edge whose character belongs to the token. -/
def go (on : CharClass) (target : Nat) : Edge := ⟨on, target, false⟩

/-- An edge whose character comes before the token. -/
def skip (on : CharClass) (target : Nat) : Edge := ⟨on, target, true⟩

end Edge

/-- A state of a lexical automaton. -/
structure LexState where
  /-- The token that is complete in this state. -/
  accepts : Option Symbol := none
  /-- The state to enter when the text is at its end. -/
  atEnd : Option Nat := none
  /-- The edges, in order of preference. -/
  edges : List Edge := []
  deriving DecidableEq, Repr, Inhabited

namespace LexState

/-- The edge to take on a character. -/
def edgeOn (state : LexState) (c : Char) : Option Edge :=
  state.edges.find? (·.on.contains c)

end LexState

end Cicode.Grammar
