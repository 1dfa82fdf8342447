/-!
# Command lines

A command line names a command, its files and some options. `Invocation.read` reads the arguments
from left to right; an option that takes a value takes the next argument. An argument that has no
place is refused at once, but whether an option has its value and stands only once is asked when
the next argument has been understood.
-/

namespace Cicode.Command

/-! ## What can be asked for -/

/-- What to do. -/
inductive Task where
  /-- Tell whether the language loads. -/
  | verify
  /-- Show the syntax tree of a file. -/
  | parse (file : String) (quiet : Bool)
  /-- Check files. -/
  | check (files : List String)
  /-- List the functions of a file. -/
  | symbols (file : String) (json : Bool)
  deriving DecidableEq, Repr, Inhabited

namespace Task

/-- The files that a task reads. -/
def files : Task → List String
  | .verify => []
  | .parse file _ | .symbols file _ => [file]
  | .check files => files

end Task

/-- A command line that was understood. -/
structure Invocation where
  task : Task
  /-- Which events to log. -/
  logLevel : Option String := none
  deriving DecidableEq, Repr, Inhabited

/-- The commands. -/
inductive Name where
  | verify | parse | check | symbols
  deriving DecidableEq, Repr, Inhabited

/-- The options. -/
inductive Flag where
  | logLevel | quiet | json | help
  deriving DecidableEq, Repr, Inhabited

namespace Name

/-- All commands. -/
def all : List Name := [.verify, .parse, .check, .symbols]

/-- How a command is written. -/
def word : Name → String
  | .verify => "verify"
  | .parse => "parse"
  | .check => "check"
  | .symbols => "symbols"

/-- What a command does. -/
def about : Name → String
  | .verify => "Check that the embedded grammar loads and print its summary"
  | .parse => "Parse a file and print its syntax tree"
  | .check => "Parse and validate files, reporting diagnostics"
  | .symbols => "List the functions defined in a file"

/-- The command of a word. -/
def ofWord? (word : String) : Option Name := all.find? (·.word == word)

/-- How the files of a command are called. -/
def operand? : Name → Option String
  | .verify => none
  | .parse | .symbols => some "<FILE>"
  | .check => some "<FILES>..."

/-- Whether a command takes one more file. -/
def takesMore (name : Name) (given : Nat) : Bool :=
  match name with
  | .verify => false
  | .parse | .symbols => given == 0
  | .check => true

/-- The options of a command, or those before the command, in the order of the help text. -/
def flags : Option Name → List Flag
  | some .parse => [.logLevel, .quiet, .help]
  | some .symbols => [.json, .logLevel, .help]
  | _ => [.logLevel, .help]

end Name

namespace Flag

/-- How an option is written. -/
def word : Flag → String
  | .logLevel => "log-level"
  | .quiet => "quiet"
  | .json => "json"
  | .help => "help"

/-- The letter that stands for an option. -/
def letter? : Flag → Option Char
  | .quiet => some 'q'
  | .help => some 'h'
  | _ => none

/-- The name of the value that an option takes. -/
def value? : Flag → Option String
  | .logLevel => some "<LOG_LEVEL>"
  | _ => none

/-- The option with its value as it is described. -/
def display (flag : Flag) : String :=
  "--" ++ flag.word ++ (match flag.value? with
    | some value => " " ++ value
    | none => "")

/-- What an option does. -/
def about : Flag → String
  | .logLevel => "Log filter such as `debug` or `cicode_ast=trace` (overrides RUST_LOG)"
  | .quiet => "Only report syntax errors"
  | .json => "Print the symbols as JSON"
  | .help => "Print help"

end Flag

/-! ## What is refused -/

/-- What help is about. -/
inductive Topic where
  /-- The program. -/
  | overview
  /-- A command. -/
  | command (name : Name)
  /-- The request for help. -/
  | help
  deriving DecidableEq, Repr, Inhabited

/-- Why a command line is not carried out. -/
inductive Refusal where
  /-- It asks for help. -/
  | help (topic : Topic)
  /-- It is empty. -/
  | noArguments
  /-- It has no command. -/
  | noCommand
  /-- There is no such command. -/
  | unknownCommand (word : String)
  /-- The argument has no place. -/
  | unexpected (argument : String)
  /-- A file is missing. -/
  | noOperand (name : Name)
  /-- The value of an option or the name of a file is missing. -/
  | noValue (what : String)
  /-- An option stands twice. -/
  | repeated (flag : Flag)
  /-- An option has a value but takes none. -/
  | unexpectedValue (value : String) (flag : Flag)
  deriving DecidableEq, Repr, Inhabited

/-- What the program is. -/
def about : String := "Cicode grammar loader, parser and checker"

/-- A text with blanks behind it up to a width. -/
def padded (text : String) (width : Nat) : String :=
  text ++ String.ofList (List.replicate (width - text.length) ' ')

/-- The line of an option in a help text. -/
def optionLine (width : Nat) (flag : Flag) : String :=
  let letter := match flag.letter? with
    | some c => "-" ++ String.singleton c ++ ", "
    | none => "    "
  "  " ++ letter ++ padded flag.display width ++ "  " ++ flag.about ++ "\n"

/-- The lines of some options in a help text. -/
def optionLines (flags : List Flag) : String :=
  let width := flags.foldl (fun width flag => max width flag.display.length) 0
  "Options:\n" ++ String.join (flags.map (optionLine width))

/-- What the request for help does. -/
def aboutHelp : String := "Print this message or the help of the given subcommand(s)"

/-- How a command line is written. -/
def usageLine : Topic → String
  | .overview => "Usage: cicode [OPTIONS] <COMMAND>"
  | .help => "Usage: cicode help [COMMAND]..."
  | .command name => "Usage: cicode " ++ name.word ++ " [OPTIONS]" ++
    (match name.operand? with
      | some operand => " " ++ operand
      | none => "")

/-- The help text. -/
def helpText : Topic → String
  | .overview =>
    let entry (word text : String) := "  " ++ padded word 7 ++ "  " ++ text ++ "\n"
    about ++ "\n\n" ++ usageLine .overview ++ "\n\nCommands:\n" ++
      String.join (Name.all.map fun name => entry name.word name.about) ++
      entry "help" aboutHelp ++ "\n" ++ optionLines (Name.flags none)
  | .command name =>
    name.about ++ "\n\n" ++ usageLine (.command name) ++ "\n\n" ++
      (match name.operand? with
        | some operand => "Arguments:\n  " ++ operand ++ "  \n\n"
        | none => "") ++
      optionLines (Name.flags (some name))
  | .help =>
    aboutHelp ++ "\n\n" ++ usageLine .help ++
      "\n\nArguments:\n  [COMMAND]...  Print help for the subcommand(s)\n"

namespace Refusal

/-- The refusal as a message. -/
def message : Refusal → String
  | .help topic => helpText topic
  | .noArguments => helpText .overview
  | .noCommand => "error: 'cicode' requires a subcommand but one was not provided\n"
  | .unknownCommand word => "error: unrecognized subcommand '" ++ word ++ "'\n"
  | .unexpected argument => "error: unexpected argument '" ++ argument ++ "' found\n"
  | .noOperand name =>
    "error: the following required arguments were not provided:\n  " ++
      name.operand?.getD "" ++ "\n"
  | .noValue what => "error: a value is required for '" ++ what ++ "' but none was supplied\n"
  | .repeated flag => "error: the argument '" ++ flag.display ++ "' cannot be used multiple times\n"
  | .unexpectedValue value flag =>
    "error: unexpected value '" ++ value ++ "' for '" ++ flag.display ++
      "' found; no more were accepted\n"

/-- The exit code. Only a request for help is a success. -/
def code : Refusal → Nat
  | .help _ => 0
  | _ => 2

end Refusal

/-! ## Reading a command line -/

/-- Where the reading of a command line has come. -/
inductive Stage where
  /-- Before the command. -/
  | start
  /-- After a request for help. -/
  | help (topic : Topic)
  /-- Behind a command. -/
  | inside (name : Name)
  deriving DecidableEq, Repr, Inhabited

/-- What has been read so far. -/
structure Reading where
  stage : Stage := .start
  /-- The last option that takes a value, until it is settled, and its value, once it is there. -/
  pending : Option (Flag × Option String) := none
  /-- The options settled since the stage began. -/
  seen : List Flag := []
  logLevel : Option String := none
  /-- The files, in order. -/
  operands : List String := []
  /-- Whether all arguments that follow are files. -/
  literal : Bool := false
  deriving DecidableEq, Repr, Inhabited

namespace Reading

/-- The command whose arguments are read. -/
def name? (reading : Reading) : Option Name :=
  match reading.stage with
  | .inside name => some name
  | _ => none

/-- The topic of a request for help at this stage. -/
def topic (reading : Reading) : Topic :=
  match reading.stage with
  | .inside name => .command name
  | _ => .overview

/-- Note an option. -/
def note (reading : Reading) (flag : Flag) : Except Refusal Reading :=
  if flag == .help then .error (.help reading.topic)
  else if reading.seen.contains flag then .error (.repeated flag)
  else .ok { reading with seen := flag :: reading.seen }

/-- Note an option with its value. -/
def noteValue (reading : Reading) (flag : Flag) (value : String) : Except Refusal Reading := do
  return { ← reading.note flag with logLevel := some value }

/-- Settle the last option that takes a value. -/
def settleFlag (reading : Reading) : Except Refusal Reading :=
  match reading.pending with
  | none => .ok reading
  | some (flag, none) => .error (.noValue flag.display)
  | some (flag, some value) => { reading with pending := none }.noteValue flag value

/-- Settle everything that was read: the last option, and that every file has a name. -/
def settle (reading : Reading) : Except Refusal Reading :=
  match reading.name? with
  | some name =>
    if reading.operands.contains "" then .error (.noValue (name.operand?.getD ""))
    else reading.settleFlag
  | none => reading.settleFlag

/-- Whether an argument looks like an option. -/
def looksLikeFlag (argument : String) : Bool :=
  argument.startsWith "-" && argument != "-"

/-- Read an option that is written out. -/
def long (reading : Reading) (argument : String) : Except Refusal Reading :=
  let body := argument.toList.drop 2
  let word := String.ofList (body.takeWhile (· != '='))
  let value? := match body.dropWhile (· != '=') with
    | _ :: value => some (String.ofList value)
    | [] => none
  match (Name.flags reading.name?).find? (·.word == word) with
  | none => .error (.unexpected ("--" ++ word))
  | some flag =>
    match flag.value?, value? with
    | none, some value => .error (.unexpectedValue value flag)
    | none, none => do (← reading.settle).note flag
    | some _, some value => do (← reading.settle).noteValue flag value
    | some _, none => do return { ← reading.settle with pending := some (flag, none) }

/-- Read options that are written as letters. -/
def short (reading : Reading) : List Char → Except Refusal Reading
  | [] => .ok reading
  | c :: rest =>
    match (Name.flags reading.name?).find? (·.letter? == some c) with
    | none => .error (.unexpected ("-" ++ String.singleton c))
    | some flag => do
      let reading ← (← reading.settle).note flag
      reading.short rest

/-- Read the word that should be a command. -/
def command (reading : Reading) (word : String) : Except Refusal Reading :=
  match Name.ofWord? word with
  | none =>
    if word != "help" then .error (.unknownCommand word)
    else if reading.literal then .error (.unexpected word)
    else .ok { reading with stage := .help .overview }
  | some name =>
    if reading.literal then .error (.unexpected word)
    else do return { ← reading.settle with stage := .inside name, seen := [] }

/-- Read the name of a file. -/
def file (reading : Reading) (name : Name) (argument : String) : Except Refusal Reading :=
  if name.takesMore reading.operands.length then do
    return { ← reading.settleFlag with operands := reading.operands ++ [argument] }
  else .error (.unexpected argument)

/-- Read an argument that is no option. -/
def operand (reading : Reading) (argument : String) : Except Refusal Reading :=
  match reading.stage with
  | .inside name => reading.file name argument
  | _ => reading.command argument

/-- Read a further word of a request for help. -/
def refine (reading : Reading) (topic : Topic) (word : String) : Except Refusal Reading :=
  match topic, Name.ofWord? word with
  | .overview, some name => .ok { reading with stage := .help (.command name) }
  | .overview, none =>
    if word == "help" then .ok { reading with stage := .help .help }
    else .error (.unknownCommand word)
  | _, _ => .error (.unknownCommand word)

/-- Read an argument. -/
def argument (reading : Reading) (argument : String) : Except Refusal Reading :=
  match reading.stage, reading.pending with
  | .help topic, _ => reading.refine topic argument
  | _, pending =>
    if reading.literal then reading.operand argument
    else if argument == "--" then .ok { reading with literal := true }
    else if argument.startsWith "--" then reading.long argument
    else if looksLikeFlag argument then reading.short (argument.toList.drop 1)
    else match pending with
      | some (flag, none) => .ok { reading with pending := some (flag, some argument) }
      | _ => reading.operand argument

/-- The task of a command with its files and options. -/
def task (reading : Reading) (name : Name) : Except Refusal Task :=
  match name, reading.operands with
  | .verify, _ => .ok .verify
  | .parse, file :: _ => .ok (.parse file (reading.seen.contains .quiet))
  | .symbols, file :: _ => .ok (.symbols file (reading.seen.contains .json))
  | .check, file :: files => .ok (.check (file :: files))
  | name, [] => .error (.noOperand name)

/-- End the reading. -/
def finish (reading : Reading) : Except Refusal Invocation := do
  match reading.stage with
  | .help topic => throw (.help topic)
  | .start =>
    let reading ← reading.settle
    throw (if reading.seen.isEmpty then .noArguments else .noCommand)
  | .inside name =>
    let reading ← reading.settle
    return { task := ← reading.task name, logLevel := reading.logLevel }

end Reading

namespace Invocation

/-- Read a command line. -/
def read (arguments : List String) : Except Refusal Invocation := do
  let reading ← arguments.foldlM Reading.argument {}
  reading.finish

/-- The files that a command line asks for. -/
def filesOf (arguments : List String) : List String :=
  match read arguments with
  | .ok invocation => invocation.task.files
  | .error _ => []

end Invocation

end Cicode.Command
