import Cicode.Grammar.NodeType

/-!
# The language as a whole

Parsing tables carry a version of their format. Tables are accepted if they exist and their version
is one of those understood here. The tables of this grammar are always accepted; they know kinds of
nodes and fields by number and by name.
-/

namespace Cicode.Grammar

/-- The version of this grammar's tables. -/
def tableVersion : Nat := 15

/-- The oldest version that is understood. -/
def minTableVersion : Nat := 13

/-- The newest version that is understood. -/
def maxTableVersion : Nat := 15

/-- Tables that are offered for loading. -/
inductive Tables where
  /-- Those of this grammar. -/
  | linked
  /-- None at all. -/
  | absent
  /-- Others, of a version. -/
  | foreign (version : Nat)
  deriving DecidableEq, Repr, Inhabited

/-- Why tables were refused. -/
inductive LoadError where
  /-- There are none. -/
  | empty
  /-- Their version is not understood. -/
  | incompatible (version : Nat)
  deriving DecidableEq, Repr, Inhabited

namespace LoadError

/-- The error as a message. -/
def message : LoadError → String
  | .empty => "Error loading Cicode grammar: the language function returned no tables"
  | .incompatible version =>
    "Error loading Cicode grammar: Incompatible language version " ++ toString version ++
      ". Expected minimum " ++ toString minTableVersion ++ ", maximum " ++ toString maxTableVersion

end LoadError

/-- A loaded language. -/
structure Language where
  /-- Its name. -/
  name : String
  /-- The version of its tables. -/
  version : Nat
  /-- How many kinds of nodes it has. -/
  kindCount : Nat
  /-- How many fields it has. -/
  fieldCount : Nat
  deriving DecidableEq, Repr, Inhabited

/-- The Cicode language. -/
def language : Language :=
  { name := "cicode", version := tableVersion, kindCount := Symbol.all.length,
    fieldCount := Field.all.length }

/-- Load tables. Foreign tables of a version that is understood are taken for this grammar's. -/
def load : Tables → Except LoadError Language
  | .linked => .ok language
  | .absent => .error .empty
  | .foreign version =>
    if minTableVersion ≤ version && version ≤ maxTableVersion then .ok language
    else .error (.incompatible version)

/-! ## Kinds and fields by number and name -/

/-- The number of the kind of skipped text. -/
def errorId : Nat := 65535

/-- The number of the hidden kind of input that is being skipped. -/
def errorRepeatId : Nat := 65534

/-- The kind of a number. -/
def kindOfId? (id : Nat) : Option Symbol :=
  if id == errorId then some .error
  else if id == errorRepeatId then some .errorRepeat
  else Symbol.all[id]?

/-- Whether a kind is one of the grammar's rules that are shown. -/
def isRuleKind (kind : Symbol) : Bool := kind.isVisible && kind.isNamed

/-- The number of the kind with a name, `0` if there is none. Every beginning of the name of
skipped text stands for it. -/
def idOfKind (name : String) (named : Bool) : Nat :=
  if named && name.toList.isPrefixOf Symbol.error.name.toList then errorId
  else
    match Symbol.all.find? fun s => s.isVisible && s.isNamed == named && s.name == name with
    | some symbol => symbol.index
    | none => 0

/-- The field of a number; they count from one. -/
def fieldOfId? (id : Nat) : Option Field := if id == 0 then none else Field.all[id - 1]?

/-- The number of the field with a name. -/
def idOfField? (name : String) : Option Nat :=
  (Field.all.findIdx? (·.label == name)).map (· + 1)

/-- What nodes of a kind are made of. -/
def nodeType? (name : String) (named : Bool) : Option NodeType :=
  nodeTypes.find? fun t => t.kind.name == name && t.kind.isNamed == named

end Cicode.Grammar
