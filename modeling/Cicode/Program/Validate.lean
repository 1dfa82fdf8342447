import Cicode.Program.Lower

/-!
# Validation

Rules that the grammar cannot express: names are declared once, documented parameters exist, a
parameter after one with a default has one too, and what a function returns fits what it declares.
-/

namespace Cicode.Program

open Text

/-- A breach of a rule. -/
inductive Fault where
  /-- Another function before has the same name. -/
  | functionRedefined (name : String)
  /-- A parameter or variable before has the same name. -/
  | redeclared (what name : String)
  /-- The documentation speaks of a parameter that is not there. -/
  | unknownParameter (name function : String)
  /-- A parameter without a default comes after one with a default. -/
  | defaultNeeded (name : String)
  /-- A function without a result returns a value. -/
  | valueInVoid (function : String)
  /-- A function with a result returns none. -/
  | valueMissing (function : String) (type : DataType)
  /-- A function with a result never returns one. -/
  | neverReturns (function : String) (type : DataType)
  deriving DecidableEq, Repr, Inhabited

namespace Fault

/-- The fault as a message. -/
def message : Fault → String
  | .functionRedefined name => "function `" ++ name ++ "` is already defined"
  | .redeclared what name => what ++ " `" ++ name ++ "` is declared more than once"
  | .unknownParameter name function =>
    "documented parameter `" ++ name ++ "` is not a parameter of `" ++ function ++ "`"
  | .defaultNeeded name =>
    "parameter `" ++ name ++ "` needs a default value because an earlier parameter has one"
  | .valueInVoid function => "VOID function `" ++ function ++ "` cannot return a value"
  | .valueMissing function type =>
    "function `" ++ function ++ "` must return a " ++ type.keyword ++ " value"
  | .neverReturns function type =>
    "function `" ++ function ++ "` is declared " ++ type.keyword ++ " but never returns a value"

/-- How bad the fault is. -/
def severity : Fault → Severity
  | .unknownParameter .. => .info
  | .neverReturns .. => .warning
  | _ => .error

/-- The fault as a diagnostic about a piece of text. -/
def reportAt (fault : Fault) (span : Span) : Diagnostic :=
  { message := fault.message, span, severity := fault.severity, phase := .validation }

end Fault

/-- The entries whose name an earlier entry has, in order. `seen` are the names before. -/
def repeated {α : Type} (name : α → String) : List String → List α → List α
  | _, [] => []
  | seen, a :: rest =>
    if seen.any (sameName (name a)) then a :: repeated name seen rest
    else repeated name (name a :: seen) rest

namespace Function

/-- Whatever is declared in a function: parameters, then local variables. -/
def declared (function : Function) : List (String × String × Span) :=
  function.parameters.map (fun p => ("parameter", p.name, p.span)) ++
    function.locals.flatMap fun d => d.declared.map fun v => ("variable", v.name, v.span)

/-- Names that are declared more than once. -/
def checkDeclarations (function : Function) : List Diagnostic :=
  (repeated (·.2.1) [] function.declared).map fun (what, name, span) =>
    (Fault.redeclared what name).reportAt span

/-- Documented parameters that are not there. -/
def checkDoc (function : Function) : List Diagnostic :=
  match function.doc with
  | none => []
  | some doc =>
    (doc.params.filter fun param => !function.parameters.any (sameName ·.name param.name)).map
      fun param => (Fault.unknownParameter param.name function.name).reportAt param.span

/-- Parameters that need a default; `seen` says whether one before has a default. -/
def checkDefaults : Bool → List Parameter → List Diagnostic
  | _, [] => []
  | seen, parameter :: rest =>
    if parameter.default.isSome then checkDefaults true rest
    else if seen then
      (Fault.defaultNeeded parameter.name).reportAt parameter.span :: checkDefaults seen rest
    else checkDefaults seen rest

/-- What is wrong with a statement of a function, as far as it is a RETURN. -/
def checkReturn (function : Function) : Statement → Option Diagnostic
  | .return span value =>
    match function.returnType, value with
    | .void, some value => some ((Fault.valueInVoid function.name).reportAt value.span)
    | .value type, none => some ((Fault.valueMissing function.name type).reportAt span)
    | _, _ => none
  | _ => none

/-- Whether a statement returns a value. -/
def returnsValue : Statement → Bool
  | .return _ (some _) => true
  | _ => false

/-- What is wrong with the results of a function. -/
def checkReturns (function : Function) : List Diagnostic :=
  let statements := Statement.walkAll function.body
  let wrong := statements.filterMap function.checkReturn
  match function.returnType with
  | .void => wrong
  | .value type =>
    if statements.any returnsValue then wrong
    else wrong ++ [(Fault.neverReturns function.name type).reportAt function.nameSpan]

/-- What is wrong with a function by itself. -/
def validate (function : Function) : List Diagnostic :=
  function.checkDeclarations ++ function.checkDoc ++ checkDefaults false function.parameters ++
    function.checkReturns

end Function

/-- What is wrong with a program: functions defined again, then the faults of each function. -/
def validate (functions : List Function) : List Diagnostic :=
  ((repeated Function.name [] functions).map fun f =>
      (Fault.functionRedefined f.name).reportAt f.nameSpan) ++
    functions.flatMap Function.validate

end Cicode.Program
