import Cicode.Command.Log
import Cicode.Command.Usage
import Cicode.Files.Workspace
import Cicode.Grammar.Language
import Cicode.Program.Check
import Cicode.Program.Symbols
import Cicode.Report.Draw
import Cicode.Tree.Sexp

/-!
# Commands

What a command line does: a function from what the disk holds to what is written and the exit code.
The exit code is `0` if nothing is wrong, `1` if a file has errors or cannot be read, `2` if the
command line is not understood, and `101` if a report cannot be drawn.
-/

namespace Cicode.Command

open Files Program Text Cicode.Tree

/-- What a command has written and how it ended. -/
structure Outcome where
  code : Nat
  stdout : String
  stderr : String
  deriving DecidableEq, Repr, Inhabited

/-- What has been written. -/
structure Console where
  stdout : String := ""
  stderr : String := ""
  deriving DecidableEq, Repr, Inhabited

namespace Console

/-- Write to the output. -/
def print (console : Console) (text : String) : Console :=
  { console with stdout := console.stdout ++ text }

/-- Write to the error output. -/
def warn (console : Console) (text : String) : Console :=
  { console with stderr := console.stderr ++ text }

/-- End with an exit code. -/
def exit (console : Console) (code : Nat) : Outcome := ⟨code, console.stdout, console.stderr⟩

/-- End because something cannot be done. -/
def fail (console : Console) (message : String) : Outcome :=
  (console.warn ("Error: " ++ message ++ "\n")).exit 1

/-- End because a report cannot be drawn. -/
def abort (console : Console) : Outcome := console.exit 101

/-- End with success if nothing is wrong. -/
def conclude (console : Console) (good : Bool) : Outcome := console.exit (if good then 0 else 1)

end Console

/-! ## Events -/

/-- The event that the language was loaded. -/
def languageEvent (language : Grammar.Language) : Event :=
  { target := "cicode_grammar::language", level := .debug, message := "Grammar loaded"
    fields := [("name", quoted language.name), ("abi_version", toString language.version),
      ("node_kinds", toString language.kindCount)] }

/-- The event that a file was loaded. -/
def loadEvent (input : Input) : Event :=
  { target := "cicode_core::database", level := .debug, message := "Loaded source"
    fields := [("path", input.path), ("bytes", toString input.text.utf8ByteSize)] }

/-- The event that a node was left out because of its syntax errors. -/
def skipEvent (dropped : Dropped) : Event :=
  { target := "cicode_ast::parser", level := .trace, message := "Skipping node with syntax errors"
    fields := [("kind", quoted dropped.node.kind.name), ("error", dropped.cause.message)] }

/-- The event that a file was turned into a program. -/
def lowerEvent (input : Input) (count : Nat) : Event :=
  { target := "cicode_ast::parser", level := .debug, message := "Lowered source file"
    fields := [("path", input.path), ("items", toString count)] }

/-- The event that a file was checked. -/
def checkEvent (path : String) (count : Nat) : Event :=
  { target := "cicode", level := .info, message := "Checked"
    fields := [("path", path), ("functions", toString count)] }

/-- The events of checking an input for the first time. -/
def inputEvents (input : Input) : List Event :=
  let source := Lex.Source.ofList input.text.toList
  let (functions, dropped) := lower source (Node.parse input.text.toList)
  loadEvent input :: (dropped.filter (·.node.hasError)).map skipEvent ++
    [lowerEvent input functions.length]

namespace Console

/-- Log some events. -/
def log (console : Console) (filter : Filter) (events : List Event) : Console :=
  console.warn (filter.lines events)

end Console

/-! ## The commands -/

/-- Load the language and describe it. -/
def verify (filter : Filter) : Outcome :=
  match Grammar.load .linked with
  | .error error => ({} : Console).fail error.message
  | .ok language =>
    let console := (({} : Console).log filter [languageEvent language]).print
      ("Loaded grammar `" ++ language.name ++ "`\n" ++
        "  ABI version: " ++ toString language.version ++ "\n" ++
        "  node kinds:  " ++ toString language.kindCount ++ "\n" ++
        "  fields:      " ++ toString language.fieldCount ++ "\n")
    console.conclude true

/-- The line of a syntax problem. -/
def problemLine (path : String) (problem : Problem) : String :=
  path ++ ":" ++ toString (problem.start.rows + 1) ++ ":" ++
    toString (problem.start.columns + 1) ++ ": " ++ problem.message ++ "\n"

/-- Show the syntax tree of a text and its problems. -/
def showTree (path : String) (quiet : Bool) (text : String) : Outcome :=
  let root := Node.parse text.toList
  let problems := Problem.list (Lex.Source.ofList text.toList) root
  let console := if quiet then {} else ({} : Console).print (root.toSexp ++ "\n")
  (console.warn (String.join (problems.map (problemLine path)))).conclude problems.isEmpty

/-- Show the syntax tree of a file. -/
def parseFile (disk : Disk) (path : String) (quiet : Bool) : Outcome :=
  match disk path with
  | .error error => ({} : Console).fail ("cannot read " ++ path ++ ": " ++ error.message)
  | .ok found =>
    match found.text with
    | .ok text => showTree path quiet text
    | .error .notText => ({} : Console).fail "stream contained invalid UTF-8"
    | .error error => ({} : Console).fail error.message

/-- Write the reports of some diagnostics; there is no console if one of them cannot be drawn. -/
def report (path : String) (text : List Char) (console : Console) :
    List Diagnostic → Except Console Console
  | [] => .ok console
  | diagnostic :: rest =>
    match Report.draw? path text diagnostic with
    | some drawing => report path text (console.warn drawing.coloured) rest
    | none => .error console

/-- How many errors and warnings there are. -/
structure Totals where
  errors : Nat := 0
  warnings : Nat := 0
  deriving DecidableEq, Repr, Inhabited

namespace Totals

/-- The totals with those of one more text. -/
def add (totals : Totals) (checked : Checked) : Totals :=
  ⟨totals.errors + checked.count .error, totals.warnings + checked.count .warning⟩

end Totals

/-- Load a file and log what happens to it. -/
def loadLogged (filter : Filter) (disk : Disk) (workspace : Workspace) (path : String)
    (console : Console) : Workspace × Console × Except FileError Input :=
  let known := workspace.inputs.length
  let (workspace, result) := workspace.load disk path
  match result with
  | .error error => (workspace, console, .error error)
  | .ok id =>
    match workspace.input? id with
    | none => (workspace, console, .error .notFound)
    | some input =>
      (workspace, if id < known then console else console.log filter (inputEvents input), .ok input)

/-- Check files one after the other and sum up. `total` is the number of all files. -/
def checkFrom (filter : Filter) (disk : Disk) (total : Nat) (workspace : Workspace)
    (totals : Totals) (console : Console) : List String → Outcome
  | [] =>
    (console.print ("Checked " ++ toString total ++ " file(s): " ++ toString totals.errors ++
      " error(s), " ++ toString totals.warnings ++ " warning(s)\n")).conclude (totals.errors == 0)
  | path :: rest =>
    match loadLogged filter disk workspace path console with
    | (_, console, .error error) => console.fail error.message
    | (workspace, console, .ok input) =>
      let checked := check input.text
      match report path input.text.toList console checked.diagnostics with
      | .error console => console.abort
      | .ok console =>
        checkFrom filter disk total workspace (totals.add checked)
          (console.log filter [checkEvent path checked.functions.length]) rest

/-- Check files. -/
def checkFiles (filter : Filter) (disk : Disk) (paths : List String) : Outcome :=
  checkFrom filter disk paths.length {} {} {} paths

/-- The lines of a function in a list. -/
def symbolLines (path : String) (symbol : FunctionSymbol) : String :=
  path ++ ":" ++ toString symbol.line ++ ": " ++ symbol.display ++ "\n" ++
    match symbol.summary with
    | some summary => "    " ++ summary ++ "\n"
    | none => ""

/-- The line of a diagnostic in a list. -/
def errorLine (path : String) (index : LineIndex) (diagnostic : Diagnostic) : String :=
  path ++ ":" ++ index.location diagnostic.span ++ ": " ++ diagnostic.message ++ "\n"

/-- List the functions of a file. -/
def listSymbols (filter : Filter) (disk : Disk) (path : String) (json : Bool) : Outcome :=
  match loadLogged filter disk {} path {} with
  | (_, console, .error error) => console.fail error.message
  | (_, console, .ok input) =>
    let checked := check input.text
    let symbols := outline input.text checked.functions
    let index := LineIndex.ofText input.text.toList
    let console :=
      if json then console.print ((outlineJson symbols).pretty ++ "\n")
      else
        let errors := checked.diagnostics.filter (·.isError)
        (console.print (String.join (symbols.map (symbolLines path)))).warn
          (String.join (errors.map (errorLine path index)))
    console.conclude (!checked.hasErrors)

/-! ## Command lines -/

/-- The filter for logging: the one on the command line, else the one in the environment, else the
standard one. Also gives the note about what was not understood. -/
def chooseFilter (given environment : Option String) : Filter × String :=
  match given with
  | some text =>
    let (filter, ignored) := Filter.parseLenient text
    (filter, String.join (ignored.map fun (part, fault) =>
      "ignoring `" ++ part ++ "`: " ++ fault.message ++ "\n"))
  | none => (((environment.bind Filter.parse?).getD .standard), "")

/-- Carry out a task. -/
def perform (filter : Filter) (disk : Disk) : Task → Outcome
  | .verify => verify filter
  | .parse file quiet => parseFile disk file quiet
  | .check files => checkFiles filter disk files
  | .symbols file json => listSymbols filter disk file json

/-- Carry out a command line. -/
def run (environment : Option String) (disk : Disk) (arguments : List String) : Outcome :=
  match Invocation.read arguments with
  | .error (.help topic) => ⟨0, helpText topic, ""⟩
  | .error refusal => ⟨refusal.code, "", refusal.message⟩
  | .ok invocation =>
    let (filter, note) := chooseFilter invocation.logLevel environment
    let outcome := perform filter disk invocation.task
    { outcome with stderr := note ++ outcome.stderr }

end Cicode.Command
