import Cicode.Json.Basic
import Cicode.Program.Function
import Cicode.Text.LineIndex
import Cicode.Text.Quoted

/-!
# Outlines

The outline of a program lists its functions with their signatures and what their documentation
says about them. An outline is written as JSON or, one function a line, as Cicode headers.
-/

namespace Cicode.Program

open Text

/-- A parameter in an outline. -/
structure ParameterSymbol where
  name : String
  type : DataType
  default : Option Literal
  description : Option String
  deriving DecidableEq, Repr, Inhabited

/-- A function in an outline. -/
structure FunctionSymbol where
  name : String
  scope : Scope
  returnType : ReturnType
  parameters : List ParameterSymbol
  summary : Option String
  /-- The line of the function's name, counted from one. -/
  line : Nat
  deriving DecidableEq, Repr, Inhabited

namespace Literal

/-- How a literal is displayed. -/
def display : Literal → String
  | .number value => toString value
  | .string value => quoted value

/-- A literal as JSON. -/
def toJson : Literal → Json
  | .number value => .number value
  | .string value => .string value

end Literal

namespace ParameterSymbol

/-- A parameter as it stands in a header. -/
def display (parameter : ParameterSymbol) : String :=
  parameter.type.keyword ++ " " ++ parameter.name ++
    match parameter.default with
    | some value => " = " ++ value.display
    | none => ""

/-- A parameter as JSON; what is not known is left out. -/
def toJson (parameter : ParameterSymbol) : Json :=
  .object ([("name", .string parameter.name), ("type", .string parameter.type.keyword)] ++
    (parameter.default.map fun value => ("default", value.toJson)).toList ++
    (parameter.description.map fun text => ("description", .string text)).toList)

end ParameterSymbol

namespace FunctionSymbol

/-- The header of a function. -/
def display (function : FunctionSymbol) : String :=
  (if function.scope == .private then "PRIVATE " else "") ++ function.returnType.keyword ++
    " FUNCTION " ++ function.name ++ "(" ++
    String.intercalate ", " (function.parameters.map (·.display)) ++ ")"

/-- A function as JSON; a summary that is not there is left out. -/
def toJson (function : FunctionSymbol) : Json :=
  .object ([("name", .string function.name), ("scope", .string function.scope.keyword),
      ("return_type", .string function.returnType.keyword),
      ("parameters", .array (function.parameters.map (·.toJson)))] ++
    (function.summary.map fun text => ("summary", .string text)).toList ++
    [("line", .number function.line)])

/-- The outline of a function. -/
def ofFunction (index : LineIndex) (function : Function) : FunctionSymbol :=
  { name := function.name
    scope := function.scope
    returnType := function.returnType
    parameters := function.parameters.map fun parameter =>
      { name := parameter.name, type := parameter.type, default := parameter.default,
        description := function.doc.bind (·.param? parameter.name) }
    summary := function.doc.bind (·.summary)
    line := (index.lineCol function.nameSpan.start).1 + 1 }

end FunctionSymbol

/-- The outline of a program. -/
def outline (text : String) (functions : List Function) : List FunctionSymbol :=
  functions.map (.ofFunction (LineIndex.ofText text.toList))

/-- An outline as JSON. -/
def outlineJson (symbols : List FunctionSymbol) : Json := .array (symbols.map (·.toJson))

end Cicode.Program
