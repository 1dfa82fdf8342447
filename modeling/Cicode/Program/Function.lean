import Cicode.Program.Basic
import Cicode.Program.Doc

/-!
# Functions

A function with its documentation. A program is the list of its functions in the order of the
text.
-/

namespace Cicode.Program

open Text

/-- A function. -/
structure Function where
  name : String
  nameSpan : Span
  scope : Scope
  returnType : ReturnType
  parameters : List Parameter
  locals : List Declaration
  body : List Statement
  doc : Option Doc
  span : Span
  deriving Repr, Inhabited

end Cicode.Program
