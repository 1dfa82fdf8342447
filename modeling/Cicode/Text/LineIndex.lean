import Cicode.Text.Blank
import Cicode.Text.Span

/-!
# Lines and columns

A `LineIndex` converts between byte offsets and lines with columns. Lines and columns count from
zero, columns count characters. An offset inside a character stands for the character's beginning,
one beyond the text for its end; a column beyond a line stands for the line's end.

The index holds the offsets at which lines begin. The line of an offset is found among them by
halving, and its column by counting the characters from there. Both ways parts of the text are cut
out by byte offsets, which fails (`Fault`) unless the offsets are between characters.
-/

namespace Cicode.Text

/-- The number of bytes of a text. -/
def byteLength : List Char → Nat
  | [] => 0
  | c :: s => c.utf8Size + byteLength s

/-- Cut a text in two behind a number of bytes, if a character ends there. -/
def splitAtByte? : List Char → Nat → Option (List Char × List Char)
  | s, 0 => some ([], s)
  | [], _ + 1 => none
  | c :: rest, bytes + 1 =>
    if c.utf8Size ≤ bytes + 1 then
      (splitAtByte? rest (bytes + 1 - c.utf8Size)).map fun (before, after) => (c :: before, after)
    else none

/-- The greatest number up to a bound at which a text can be cut. -/
def boundaryBelow (s : List Char) : Nat → Nat
  | 0 => 0
  | bytes + 1 => if (splitAtByte? s (bytes + 1)).isSome then bytes + 1 else boundaryBelow s bytes

/-- The byte offset of the character with a number. -/
def nthOffset? : List Char → Nat → Option Nat
  | [], _ => none
  | _ :: _, 0 => some 0
  | c :: rest, n + 1 => (nthOffset? rest n).map (c.utf8Size + ·)

/-- Drop the line feeds at the end. -/
def trimLineFeeds (s : List Char) : List Char := (s.reverse.dropWhile (· == '\n')).reverse

/-- How many of some ascending numbers are at most a bound, found by halving the stretch that is in
question. -/
def partitionPoint (numbers : Array Nat) (bound low high : Nat) (h : high ≤ numbers.size) : Nat :=
  if hlow : low < high then
    have hmiddle : (low + high) / 2 < numbers.size := by omega
    if numbers[(low + high) / 2] ≤ bound then
      partitionPoint numbers bound ((low + high) / 2 + 1) high h
    else partitionPoint numbers bound low ((low + high) / 2) (by omega)
  else low
termination_by high - low

/-- What makes a conversion fail. -/
inductive Fault where
  /-- The line is looked up, but the index does not have it. -/
  | noLine
  /-- The text is cut inside a character, beyond its end or backwards. -/
  | badCut
  deriving DecidableEq, Repr, Inhabited

/-- The part of a text between two byte offsets. -/
def cut (s : List Char) (start stop : Nat) : Except Fault (List Char) :=
  match splitAtByte? s stop with
  | none => .error .badCut
  | some (upTo, _) =>
    match splitAtByte? upTo start with
    | none => .error .badCut
    | some (_, part) => .ok part

/-- The lines of a text, of which there is at least one. -/
structure LineIndex where
  /-- The byte offsets at which lines begin. -/
  lineStarts : Array Nat
  /-- The text. -/
  source : List Char
  deriving DecidableEq, Repr, Inhabited

namespace LineIndex

/-- The byte offsets behind the line feeds of a text that begins at an offset. -/
def startsFrom (start : Nat) : List Char → List Nat
  | [] => []
  | c :: rest =>
    if c = '\n' then (start + 1) :: startsFrom (start + 1) rest
    else startsFrom (start + c.utf8Size) rest

/-- The index of a text. -/
def ofText (s : List Char) : LineIndex := ⟨(0 :: startsFrom 0 s).toArray, s⟩

/-- The number of lines. -/
def lineCount (index : LineIndex) : Nat := index.lineStarts.size

/-- The line and column of an offset. -/
def findLineCol (index : LineIndex) (offset : Nat) : Except Fault (Nat × Nat) :=
  let offset := boundaryBelow index.source (min offset (byteLength index.source))
  let line := partitionPoint index.lineStarts offset 0 index.lineStarts.size (Nat.le_refl _) - 1
  match index.lineStarts[line]? with
  | none => .error .noLine
  | some start => (cut index.source start offset).map fun before => (line, before.length)

/-- The line and column of an offset, as far as they can be found. -/
def lineCol (index : LineIndex) (offset : Nat) : Nat × Nat :=
  match index.findLineCol offset with
  | .ok place => place
  | .error _ => (0, 0)

/-- The characters of a line that begins at an offset, without the line feed. -/
def lineText (index : LineIndex) (line start : Nat) : Except Fault (List Char) :=
  let stop := index.lineStarts[line + 1]?.getD (byteLength index.source)
  (cut index.source start stop).map trimLineFeeds

/-- The offset of a line and column, if there is such a line. -/
def findOffset (index : LineIndex) (line column : Nat) : Except Fault (Option Nat) :=
  match index.lineStarts[line]? with
  | none => .ok none
  | some start => (index.lineText line start).map fun chars =>
    some (start + (nthOffset? chars column).getD (byteLength chars))

/-- The offset of a line and column, if there is such a line and the offset can be found. -/
def offset (index : LineIndex) (line column : Nat) : Option Nat :=
  match index.findOffset line column with
  | .ok offset => offset
  | .error _ => none

/-- The place where a span begins, with line and column counted from one. -/
def location (index : LineIndex) (span : Span) : String :=
  let (line, column) := index.lineCol span.start
  toString (line + 1) ++ ":" ++ toString (column + 1)

end LineIndex

end Cicode.Text
