/-!
# Sets of code points

Large sets of characters are given as ordered lists of closed ranges of code points.
-/

namespace Cicode.Text

/-- Whether a code point lies in one of some closed ranges in order. The search ends at the first
range beyond the code point. -/
def inCodeRanges (code : Nat) : List (Nat × Nat) → Bool
  | [] => false
  | (low, high) :: rest =>
    if code < low then false else if code ≤ high then true else inCodeRanges code rest

end Cicode.Text
