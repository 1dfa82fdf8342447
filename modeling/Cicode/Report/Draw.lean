import Cicode.Program.Diagnostic
import Cicode.Report.Paint
import Cicode.Report.Place

/-!
# Drawing a diagnostic

A report repeats the line of a diagnostic, underlines the text in question and attaches the
message to the middle of it. Where the text spans several lines, the first and the last of them
are shown with a bracket at their side, and the message hangs below the last one.
-/

namespace Cicode.Report

open Text Program

/-! ## Colours and words -/

/-- The colour of margins. -/
def marginColour : Colour := .shade 246

/-- The colour of margins beside rows that are no lines of the text. -/
def skippedColour : Colour := .shade 240

/-- The colour of text that is not in question. -/
def quietColour : Colour := .shade 249

/-- The colour of a phase. -/
def phaseColour : Phase → Colour
  | .parsing => .red
  | .lowering => .yellow
  | .validation => .magenta

/-- The colour of a severity. -/
def severityColour : Severity → Colour
  | .error => .red
  | .warning => .yellow
  | .info => .shade 147

/-- The word for a severity. -/
def severityWord : Severity → String
  | .error => "Error"
  | .warning => "Warning"
  | .info => "Advice"

/-! ## Pieces of a row -/

/-- Some blanks. -/
def blanks (count : Nat) : Piece := .plain (String.ofList (List.replicate count ' '))

/-- The margin beside a line of the text. -/
def lineMargin (width : Nat) (line : SourceLine) : Row :=
  let digits := (toString (line.number + 1)).toList
  let padding := List.replicate (width - digits.length) ' '
  [.plain " ", .of marginColour (String.ofList (padding ++ digits ++ [' ', '│'])), .plain " "]

/-- The margin beside a row that is no line of the text. -/
def rowMargin (width : Nat) (bar : Char) : Row :=
  [.plain " ", .of skippedColour (String.ofList (List.replicate (width + 1) ' ' ++ [bar])),
    .plain " "]

/-- Fill the columns of a character: the first with one piece, the others with another. -/
def fill : Nat → Piece → Piece → Row
  | 0, _, _ => []
  | width + 1, first, rest => first :: List.replicate width rest

/-- The characters of a line, those of the place in its colour. White space is drawn as blanks. -/
def drawChars (colour : Colour) (place : Place) (line : SourceLine) : Nat → List Char → Row
  | _, [] => []
  | column, c :: rest =>
    let colour' := if place.covers line column then colour else quietColour
    (if isBlank c then List.replicate (columnsOf c column) (.of colour' " ")
      else [.of colour' (String.singleton c)]) ++ drawChars colour place line (column + 1) rest

/-- A line of the text. -/
def drawLine (colour : Colour) (place : Place) (line : SourceLine) : Row :=
  drawChars colour place line 0 (trimEnd line.chars)

/-- A row below a line: for each character the piece that stands below it and the piece that fills
the rest of its columns. -/
def drawBelow (line : SourceLine) (count : Nat) (cell : Nat → Piece × Piece) : Row :=
  ((columnWidths 0 count (trimEnd line.chars)).zipIdx.map fun (width, column) =>
    fill width (cell column).1 (cell column).2).flatten

/-! ## Labels -/

/-- How far the rows below a line reach beyond the label. -/
def arrowSpace : Nat := 2

/-- A label on one line: the line, its underline and the message. -/
def drawInline (width : Nat) (colour : Colour) (place : Place) (message : String) : Drawing :=
  let line := place.first
  let middle := (place.column + place.endColumn) / 2
  let count := place.endColumn + arrowSpace
  let blank := Piece.plain " "
  let bar := Piece.of colour "─"
  [lineMargin width line ++ drawLine colour place line,
    rowMargin width '│' ++ drawBelow line count fun column =>
      if column == middle then (.of colour "┬", bar)
      else if place.covers line column then (bar, bar) else (blank, blank),
    rowMargin width '│' ++ (drawBelow line count fun column =>
      if column == middle then (.of colour "╰", bar)
      else if column > middle then (bar, bar) else (blank, blank)) ++
      [.plain (" " ++ message)]]

/-- The row that stands for the lines between the first and the last. -/
def gapRow (width : Nat) (colour : Colour) : Row :=
  rowMargin width '┆' ++ [.of colour "┆", blanks 3]

/-- A label on several lines: the first and the last line beside a bracket, and the message. -/
def drawMultiline (width : Nat) (colour : Colour) (place : Place) (message : String) : Drawing :=
  let count := place.last.chars.length + arrowSpace
  let blank := Piece.plain " "
  let bar := Piece.of colour "─"
  let arrow (corner : String) : Row := [.of colour corner, bar, .of colour "▶", .of colour " "]
  let gap := if place.last.number > place.first.number + 1 then [gapRow width colour] else []
  [lineMargin width place.first ++ arrow "╭" ++ drawLine colour place place.first] ++ gap ++
  [lineMargin width place.last ++ arrow "├" ++ drawLine colour place place.last,
    rowMargin width '│' ++ [.of colour "│", blanks 3] ++
      drawBelow place.last count (fun _ => (blank, blank)),
    rowMargin width '│' ++ [.of colour "╰", bar, bar, bar] ++
      drawBelow place.last count (fun _ => (bar, bar)) ++ [.plain (" " ++ message)]]

/-- A label. -/
def drawLabel (width : Nat) (colour : Colour) (place : Place) (message : String) : Drawing :=
  if place.isInline then drawInline width colour place message
  else drawMultiline width colour place message

/-! ## The whole report -/

/-- The headline. -/
def headline (diagnostic : Diagnostic) : Row :=
  [.of (severityColour diagnostic.severity)
      ("[" ++ diagnostic.phase.name ++ "] " ++ severityWord diagnostic.severity ++ ":"),
    .plain (" " ++ diagnostic.message)]

/-- The row that names the file and the position. -/
def locationRow (width : Nat) (path : String) (place : Place) : Row :=
  let position := path ++ ":" ++ toString (place.first.number + 1) ++ ":" ++
    toString (place.column + 1)
  [blanks (width + 2), .of marginColour "╭", .of marginColour "─", .of marginColour "[",
    .plain (" " ++ position ++ " "), .of marginColour "]"]

/-- The row that ends the report. -/
def finalRow (width : Nat) : Row :=
  [.of marginColour (String.ofList (List.replicate (width + 2) '─' ++ ['╯']))]

/-- The report of a diagnostic about a text. There is none if an end of the diagnostic's span lies
inside a character. -/
def draw? (path : String) (text : List Char) (diagnostic : Diagnostic) : Option Drawing := do
  let span := diagnostic.span.normalize (byteLength text)
  let place ← Place.ofSpan? (sourceLines text) span
  let width := (toString (place.last.number + 1)).length
  return [headline diagnostic, locationRow width path place,
      [blanks (width + 2), .of marginColour "│"]] ++
    drawLabel width (phaseColour diagnostic.phase) place diagnostic.message ++ [finalRow width]

end Cicode.Report
