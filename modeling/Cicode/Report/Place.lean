import Cicode.Text.Blank
import Cicode.Text.LineIndex
import Cicode.Text.Span
import Cicode.Text.Width

/-!
# Places in a text as a report shows them

A report shows whole lines. For it a line ends at any of seven characters, or at a carriage return
with a line feed, and keeps that end. A span is found in the lines by `Place.ofSpan?`; it has no
place when one of its ends lies inside a character or outside the text.
-/

namespace Cicode.Report

open Text

/-- The characters that end a line. -/
def isLineEnd (c : Char) : Bool :=
  c == '\n' || c == '\r' || c == '\x0b' || c == '\x0c' || c == '\x85' || c == '\u2028' ||
    c == '\u2029'

/-- The lines of a text that is not empty, each with its end. -/
def splitAtEnds : List Char → List (List Char)
  | [] => []
  | c :: rest =>
    if c == '\r' && rest.head? == some '\n' then consHead c (splitAtEnds rest)
    else if isLineEnd c then [c] :: splitAtEnds rest
    else consHead c (splitAtEnds rest)

/-- A line of a text. -/
structure SourceLine where
  /-- How many lines come before. -/
  number : Nat
  /-- How many characters come before. -/
  start : Nat
  /-- How many bytes come before. -/
  byteStart : Nat
  /-- The characters, the end included. -/
  chars : List Char
  deriving DecidableEq, Repr, Inhabited

/-- Number the lines and count what comes before each of them. -/
def placeLines (number start byteStart : Nat) : List (List Char) → List SourceLine
  | [] => []
  | chars :: rest =>
    ⟨number, start, byteStart, chars⟩ ::
      placeLines (number + 1) (start + chars.length) (byteStart + byteLength chars) rest

/-- The lines of a text, of which there is at least one. -/
def sourceLines (text : List Char) : List SourceLine :=
  placeLines 0 0 0 (if text.isEmpty then [[]] else splitAtEnds text)

/-- How many characters make up exactly the first bytes of a text. -/
def charsOfBytes? : Nat → List Char → Option Nat
  | 0, _ => some 0
  | _, [] => none
  | bytes, c :: rest =>
    if c.utf8Size ≤ bytes then (charsOfBytes? (bytes - c.utf8Size) rest).map (· + 1) else none

/-- The line that holds a byte. -/
def lineOfByte? (lines : List SourceLine) (offset : Nat) : Option SourceLine :=
  (lines.takeWhile (·.byteStart ≤ offset)).getLast?

/-- Where a span lies. -/
structure Place where
  /-- The line of the first character. -/
  first : SourceLine
  /-- The line of the last character. -/
  last : SourceLine
  /-- How many characters of the first line come before the span. -/
  column : Nat
  /-- How many characters of the last line come before the end of the span. -/
  endColumn : Nat
  deriving DecidableEq, Repr, Inhabited

namespace Place

/-- The place of a span that is not empty. -/
def ofSpan? (lines : List SourceLine) (span : Span) : Option Place := do
  let first ← lineOfByte? lines span.start
  let last ← lineOfByte? lines (span.stop - 1)
  let column ← charsOfBytes? (span.start - first.byteStart) first.chars
  let endColumn ← charsOfBytes? (span.stop - last.byteStart) last.chars
  return { first, last, column, endColumn }

/-- Whether the place lies on one line. -/
def isInline (place : Place) : Bool := place.first.number == place.last.number

/-- Whether a character of a line belongs to the place. -/
def covers (place : Place) (line : SourceLine) (column : Nat) : Bool :=
  let offset := line.start + column
  place.first.start + place.column ≤ offset && offset < place.last.start + place.endColumn

end Place

/-! ## Columns of a terminal -/

/-- The distance of tab stops. -/
def tabWidth : Nat := 4

/-- How many columns a character takes; a tab reaches up to the next tab stop, counted in
characters. -/
def columnsOf (c : Char) (column : Nat) : Nat :=
  if c == '\t' then tabWidth - column % tabWidth
  else if isBlank c then 1
  else displayWidth c

/-- The columns that the first `count` characters of a line take. Beyond its end each place takes
one column. -/
def columnWidths (column : Nat) : Nat → List Char → List Nat
  | 0, _ => []
  | count + 1, [] => 1 :: columnWidths (column + 1) count []
  | count + 1, c :: rest => columnsOf c column :: columnWidths (column + 1) count rest

end Cicode.Report
