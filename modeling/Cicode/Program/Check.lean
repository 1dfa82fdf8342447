import Cicode.Program.Validate

/-!
# Checking a text

A text is parsed, lowered and validated. The diagnostics of the phases come one phase after
another; `check` puts them in the order of the text.
-/

namespace Cicode.Program

open Text

/-- The result of checking a text. -/
structure Checked where
  functions : List Function
  diagnostics : List Diagnostic
  deriving Inhabited

/-- Check a text, with the diagnostics in the order in which the phases find them. -/
def checkInOrder (text : String) : Checked :=
  let (functions, diagnostics) := parse text
  { functions, diagnostics := diagnostics ++ validate functions }

/-- Check a text, with the diagnostics in the order of the text. -/
def check (text : String) : Checked :=
  let checked := checkInOrder text
  { checked with diagnostics := checked.diagnostics.mergeSort fun a b => a.span.le b.span }

namespace Checked

/-- How many diagnostics have a severity. -/
def count (checked : Checked) (severity : Severity) : Nat :=
  checked.diagnostics.countP (·.severity == severity)

/-- Whether there is an error. -/
def hasErrors (checked : Checked) : Bool := checked.diagnostics.any (·.isError)

end Checked

end Cicode.Program
