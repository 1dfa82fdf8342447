import Cicode.Text.Blank

/-!
# Logging

The program tells what it does in events of five levels. A filter decides which of them are
written: it is a list of directives, each with a part of the program and the lowest level that is
written for it. The directive with the longest name that fits decides.
-/

namespace Cicode.Command

/-- How much an event matters, the most important first. -/
inductive Level where
  | error | warn | info | debug | trace
  deriving DecidableEq, Repr, Inhabited

namespace Level

/-- The level as a number; the higher, the less it matters. -/
def rank : Level → Nat
  | .error => 1
  | .warn => 2
  | .info => 3
  | .debug => 4
  | .trace => 5

/-- The name of a level. -/
def name : Level → String
  | .error => "ERROR"
  | .warn => "WARN"
  | .info => "INFO"
  | .debug => "DEBUG"
  | .trace => "TRACE"

end Level

/-- Something that the program tells about its work. -/
structure Event where
  /-- The part of the program it comes from. -/
  target : String
  level : Level
  message : String
  /-- Named values, as they are written. -/
  fields : List (String × String) := []
  deriving DecidableEq, Repr, Inhabited

namespace Event

/-- The line of an event. -/
def line (event : Event) : String :=
  event.level.name ++ " " ++ event.message ++
    String.join (event.fields.map fun (name, value) => " " ++ name ++ "=" ++ value) ++ "\n"

end Event

/-- Up to which rank the events of some parts of the program are written. -/
structure Directive where
  /-- How the names of these parts begin. -/
  target : String
  /-- The highest rank that is written; none at `0`. -/
  limit : Nat
  deriving DecidableEq, Repr, Inhabited

/-- Why a directive is not understood. -/
inductive DirectiveFault where
  /-- It has not the form of a directive. -/
  | malformed
  /-- What should be a level is none. -/
  | unknownLevel
  deriving DecidableEq, Repr, Inhabited

namespace DirectiveFault

/-- The fault as a message. -/
def message : DirectiveFault → String
  | .malformed => "invalid filter directive"
  | .unknownLevel =>
    "error parsing level filter: expected one of \"off\", \"error\", \"warn\", " ++
      "\"info\", \"debug\", \"trace\", or a number 0-5"

end DirectiveFault

namespace Directive

/-- The limit that a number stands for. It may have a sign and leading zeros. -/
def limitOfDigits? (text : List Char) : Option Nat :=
  let digits := match text with
    | '+' :: rest => rest
    | _ => text
  if digits.isEmpty || !digits.all Char.isDigit then none
  else match digits.dropWhile (· == '0') with
    | [] => some 0
    | [c] => if c ≤ '5' then some (c.toNat - '0'.toNat) else none
    | _ => none

/-- The limit that a word stands for. -/
def limit? (word : List Char) : Option Nat :=
  match String.ofList (word.map Char.toLower) with
  | "off" => some 0
  | "error" => some Level.error.rank
  | "warn" => some Level.warn.rank
  | "info" => some Level.info.rank
  | "debug" => some Level.debug.rank
  | "trace" => some Level.trace.rank
  | _ => limitOfDigits? word

/-- The characters with which a target begins. A bracket begins the name of a span; since there
are no spans, such a directive has no effect. -/
def beginsTarget (c : Char) : Bool :=
  c.isAlphanum || c == '_' || c == ':' || c == '-' || c == '['

/-- Read the limit that follows a target. Without one, everything is written. -/
def limitAfter (text : List Char) : Except DirectiveFault Nat :=
  if text.isEmpty then .ok Level.trace.rank
  else match limit? text with
    | some limit => .ok limit
    | none => .error .unknownLevel

/-- Read a directive: a limit for everything, a target for which everything is written, or a target
and a limit. -/
def parse (text : String) : Except DirectiveFault Directive := do
  let chars := text.toList
  match (Text.trim chars).head? with
  | none => throw .malformed
  | some first =>
    if !beginsTarget first then throw .malformed
    let target := chars.takeWhile (· != '=')
    match chars.drop target.length with
    | [] =>
      match limit? chars with
      | some limit => return ⟨"", limit⟩
      | none => return ⟨text, Level.trace.rank⟩
    | _ :: level => return ⟨String.ofList target, ← limitAfter level⟩

end Directive

/-- Which events are written. -/
structure Filter where
  directives : List Directive
  deriving DecidableEq, Repr, Inhabited

namespace Filter

/-- The filter that writes warnings and errors. -/
def standard : Filter := ⟨[⟨"", Level.warn.rank⟩]⟩

/-- The directives in a text. -/
def parts (text : String) : List String :=
  ((text.toList.splitOn ',').filter (!·.isEmpty)).map String.ofList

/-- Read a filter in which every directive must be understood. -/
def parse? (text : String) : Option Filter :=
  ((parts text).mapM Directive.parse).toOption.map (⟨·⟩)

/-- Read a filter, leaving out what is not understood. Also gives what was left out and why. -/
def parseLenient (text : String) : Filter × List (String × DirectiveFault) :=
  (⟨(parts text).filterMap fun part => (Directive.parse part).toOption⟩,
    (parts text).filterMap fun part => match Directive.parse part with
      | .ok _ => none
      | .error fault => some (part, fault))

/-- The directive that decides about a target: the last one among those with the longest name. -/
def deciding? (filter : Filter) (target : String) : Option Directive :=
  (filter.directives.filter fun d => d.target.toList.isPrefixOf target.toList).foldl
    (fun best d => match best with
      | none => some d
      | some b => if b.target.length ≤ d.target.length then some d else some b) none

/-- Whether events of a target and a level are written. Where no directive decides, errors are. -/
def allows (filter : Filter) (target : String) (level : Level) : Bool :=
  level.rank ≤ ((filter.deciding? target).map (·.limit)).getD
    (if filter.directives.isEmpty then Level.error.rank else 0)

/-- The lines of those events that are written. -/
def lines (filter : Filter) (events : List Event) : String :=
  String.join ((events.filter fun e => filter.allows e.target e.level).map (·.line))

end Filter

end Cicode.Command
