/-!
# Coloured text

A drawing is a list of rows, a row a list of pieces of text, and each piece has at most one colour.
The same drawing is written in two ways: `Drawing.plain` leaves the colours out, and
`Drawing.coloured` wraps each coloured piece in the escape sequences of a terminal.
-/

namespace Cicode.Report

/-- A colour of a terminal. -/
inductive Colour where
  | red | yellow | magenta
  /-- One of the 256 colours of the extended palette. -/
  | shade (number : Nat)
  deriving DecidableEq, Repr, Inhabited

/-- A piece of text with its colour. -/
structure Piece where
  text : String
  colour : Option Colour := none
  deriving DecidableEq, Repr, Inhabited

/-- A row of a drawing. -/
abbrev Row := List Piece

/-- A drawing. -/
abbrev Drawing := List Row

namespace Colour

/-- The name of a colour; shades go by their number. -/
def name : Colour → String
  | .red => "Red"
  | .yellow => "Yellow"
  | .magenta => "Magenta"
  | .shade number => "Fixed(" ++ toString number ++ ")"

/-- The parameters that select a colour for the text that follows. -/
def parameters : Colour → String
  | .red => "31"
  | .yellow => "33"
  | .magenta => "35"
  | .shade number => "38;5;" ++ toString number

/-- A text between the sequences that select a colour and that end it. -/
def paint (colour : Colour) (text : String) : String :=
  "\x1b[" ++ colour.parameters ++ "m" ++ text ++ "\x1b[0m"

end Colour

namespace Piece

/-- A piece without a colour. -/
def plain (text : String) : Piece := { text := text }

/-- A piece of a colour. -/
def of (colour : Colour) (text : String) : Piece := { text, colour := some colour }

/-- The piece with its colour. -/
def coloured (piece : Piece) : String :=
  match piece.colour with
  | none => piece.text
  | some colour => colour.paint piece.text

end Piece

namespace Drawing

/-- Write a drawing, each piece by itself and each row on a line. -/
def write (piece : Piece → String) (drawing : Drawing) : String :=
  String.join (drawing.map fun row => String.join (row.map piece) ++ "\n")

/-- The drawing without colours. -/
def plain (drawing : Drawing) : String := drawing.write (·.text)

/-- The drawing with colours. -/
def coloured (drawing : Drawing) : String := drawing.write (·.coloured)

end Drawing

end Cicode.Report
