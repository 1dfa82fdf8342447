/-!
# Extents of text

An `Extent` measures a stretch of text: its bytes, the line feeds in it, and the bytes after the
last of them. The extent of the text before a place is the place's position. Extents form a monoid
under concatenation, and `Extent.of` is a homomorphism from texts to it.
-/

namespace Cicode.Text

/-- The size of a stretch of text, or a position as the size of what comes before it. -/
@[ext]
structure Extent where
  /-- Bytes of the UTF-8 form. -/
  bytes : Nat
  /-- Line feeds. -/
  rows : Nat
  /-- Bytes after the last line feed. -/
  columns : Nat
  deriving DecidableEq, Repr, Inhabited

namespace Extent

/-- The extent of the empty text. -/
def zero : Extent := ⟨0, 0, 0⟩

instance : Zero Extent := ⟨zero⟩

/-- The extent of two stretches after each other. -/
def append (a b : Extent) : Extent :=
  ⟨a.bytes + b.bytes, a.rows + b.rows, if b.rows = 0 then a.columns + b.columns else b.columns⟩

instance : Add Extent := ⟨append⟩

/-- The extent that leads from position `b` to a later position `a`. -/
def sub (a b : Extent) : Extent :=
  ⟨a.bytes - b.bytes, a.rows - b.rows,
    if a.rows > b.rows then a.columns else a.columns - b.columns⟩

instance : Sub Extent := ⟨sub⟩

/-- The extent of a single character. -/
def ofChar (c : Char) : Extent :=
  if c = '\n' then ⟨1, 1, 0⟩ else ⟨c.utf8Size, 0, c.utf8Size⟩

/-- The extent of a text. -/
def of (chars : List Char) : Extent :=
  chars.foldl (fun extent c => extent + ofChar c) 0

@[simp] theorem bytes_zero : (0 : Extent).bytes = 0 := rfl
@[simp] theorem rows_zero : (0 : Extent).rows = 0 := rfl
@[simp] theorem columns_zero : (0 : Extent).columns = 0 := rfl
@[simp] theorem bytes_add (a b : Extent) : (a + b).bytes = a.bytes + b.bytes := rfl
@[simp] theorem rows_add (a b : Extent) : (a + b).rows = a.rows + b.rows := rfl

theorem columns_add (a b : Extent) :
    (a + b).columns = if b.rows = 0 then a.columns + b.columns else b.columns := rfl

end Extent

end Cicode.Text
