/-!
# White space

The characters with the Unicode property `White_Space`, and the operations on text that are stated
in terms of it: trimming, splitting into words, and splitting into lines.
-/

namespace Cicode.Text

/-- The white space characters. -/
def isBlank (c : Char) : Bool :=
  ('\t' ≤ c && c ≤ '\r') || c == ' ' || c == '\x85' || c == '\xa0' || c == '\u1680' ||
    ('\u2000' ≤ c && c ≤ '\u200a') || c == '\u2028' || c == '\u2029' || c == '\u202f' ||
    c == '\u205f' || c == '\u3000'

/-- Drop white space at the beginning. -/
def trimStart (s : List Char) : List Char := s.dropWhile isBlank

/-- Drop white space at the end. -/
def trimEnd (s : List Char) : List Char := (s.reverse.dropWhile isBlank).reverse

/-- Drop white space at both ends. -/
def trim (s : List Char) : List Char := trimEnd (trimStart s)

/-- Put a character in front of the first of some pieces. -/
def consHead (c : Char) : List (List Char) → List (List Char)
  | [] => [[c]]
  | piece :: rest => (c :: piece) :: rest

/-- The pieces between line feeds. There is always at least one. -/
def splitLines : List Char → List (List Char)
  | [] => [[]]
  | c :: rest => if c = '\n' then [] :: splitLines rest else consHead c (splitLines rest)

/-- A line without the carriage return at its end. -/
def dropReturn (line : List Char) : List Char :=
  match line.reverse with
  | '\r' :: rest => rest.reverse
  | _ => line

/-- The lines of a text. A line ends with a line feed or with a carriage return and a line feed;
after the last line feed there is a line only if some text follows, and that line keeps a carriage
return at its end. -/
def lines (s : List Char) : List (List Char) :=
  match (splitLines s).reverse with
  | [] => []
  | [] :: before => (before.map dropReturn).reverse
  | last :: before => (last :: before.map dropReturn).reverse

/-- The pieces between white space characters, the empty ones included. -/
def splitBlanks : List Char → List (List Char)
  | [] => [[]]
  | c :: rest => if isBlank c then [] :: splitBlanks rest else consHead c (splitBlanks rest)

/-- The words of a text: its longest stretches without white space. -/
def words (s : List Char) : List (List Char) := (splitBlanks s).filter (!·.isEmpty)

end Cicode.Text
