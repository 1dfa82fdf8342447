import Cicode.Text.Span

/-!
# Diagnostics

A diagnostic tells what is wrong with a piece of text, how bad it is, and which phase noticed it.
-/

namespace Cicode.Program

open Text

/-- How bad it is. -/
inductive Severity where
  | error | warning | info
  deriving DecidableEq, Repr, Inhabited

/-- Which phase noticed it. -/
inductive Phase where
  | parsing | lowering | validation
  deriving DecidableEq, Repr, Inhabited

/-- A message about a piece of text. -/
structure Diagnostic where
  message : String
  span : Span
  severity : Severity
  phase : Phase
  deriving DecidableEq, Repr, Inhabited

namespace Severity

/-- The name of a severity. -/
def name : Severity → String
  | .error => "ERROR"
  | .warning => "WARNING"
  | .info => "INFO"

end Severity

namespace Phase

/-- The name of a phase. -/
def name : Phase → String
  | .parsing => "parsing"
  | .lowering => "ast-generation"
  | .validation => "validation"

end Phase

namespace Diagnostic

/-- Whether it is an error. -/
def isError (diagnostic : Diagnostic) : Bool := diagnostic.severity == .error

end Diagnostic

end Cicode.Program
