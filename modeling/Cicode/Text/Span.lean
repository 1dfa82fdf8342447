/-!
# Spans

A span is a stretch of text between two byte offsets. Spans are plain pairs: an end before the
start is allowed and makes the span empty.
-/

namespace Cicode.Text

/-- The text between two byte offsets. -/
@[ext]
structure Span where
  /-- The offset of the first byte. -/
  start : Nat
  /-- The offset after the last byte. -/
  stop : Nat
  deriving DecidableEq, Repr, Inhabited

namespace Span

/-- The number of bytes, `0` for a span that ends before it starts. -/
def length (span : Span) : Nat := span.stop - span.start

/-- Whether there are no bytes in the span. -/
def isEmpty (span : Span) : Bool := span.length == 0

/-- The least span that covers two spans. -/
def merge (a b : Span) : Span := ⟨min a.start b.start, max a.stop b.stop⟩

/-- Spans are ordered by their start, then by their end. -/
def compare (a b : Span) : Ordering :=
  (Ord.compare a.start b.start).then (Ord.compare a.stop b.stop)

/-- The order of spans as a test. -/
def le (a b : Span) : Bool := compare a b != .gt

/-- A span that can be pointed at: not empty, and inside a text of the given length unless the
text is empty. -/
def normalize (span : Span) (length : Nat) : Span :=
  let start := min span.start (length - 1)
  ⟨start, max (start + 1) (min span.stop (max length (start + 1)))⟩

end Span

end Cicode.Text
