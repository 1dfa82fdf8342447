import Cicode.Text.Extent

/-!
# Cursors into a text

A `Cursor` is a position together with the text that follows it. A `Source` finds the cursor at a
byte position in one step.
-/

namespace Cicode.Lex

open Text

/-- A position in a text and what follows it. -/
structure Cursor where
  /-- The text from here on. -/
  rest : List Char
  /-- The extent of the text before. -/
  position : Extent
  deriving Repr, Inhabited

namespace Cursor

/-- The cursor after the next character; the end of the text is never left. -/
def next : Cursor → Cursor
  | ⟨[], position⟩ => ⟨[], position⟩
  | ⟨c :: rest, position⟩ => ⟨rest, position + Extent.ofChar c⟩

/-- No character follows. -/
def atEnd (cursor : Cursor) : Bool := cursor.rest.isEmpty

end Cursor

/-- A text with its suffixes by byte position. -/
structure Source where
  /-- The characters of the text. -/
  chars : List Char
  /-- The suffix that begins at each byte position. -/
  suffixes : Array (List Char)
  deriving Inhabited

namespace Source

/-- The suffixes of a text, one entry for each byte: a character of several bytes repeats the
suffix that begins with it. -/
def suffixesOf : List Char → List (List Char)
  | [] => []
  | c :: rest => List.replicate c.utf8Size (c :: rest) ++ suffixesOf rest

/-- Prepare a text. -/
def ofList (chars : List Char) : Source := ⟨chars, (suffixesOf chars).toArray⟩

/-- The number of bytes of the text. -/
def size (source : Source) : Nat := source.suffixes.size

/-- The cursor at a position. -/
def cursorAt (source : Source) (position : Extent) : Cursor :=
  ⟨(source.suffixes[position.bytes]?).getD [], position⟩

/-- The characters of a text up to a number of bytes. -/
def takeBytes : Nat → List Char → List Char
  | _, [] => []
  | bytes, c :: rest => if c.utf8Size ≤ bytes then c :: takeBytes (bytes - c.utf8Size) rest else []

/-- The text between two positions. -/
def slice (source : Source) (start stop : Extent) : List Char :=
  takeBytes (stop.bytes - start.bytes) (source.cursorAt start).rest

end Source

end Cicode.Lex
