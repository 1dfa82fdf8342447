import Cicode.Grammar.Symbol

/-!
# Productions with named children

Some productions give a child another kind than its own symbol, and some label a child with a
field. Children are counted without extras. Production `0` does neither.
-/

namespace Cicode.Grammar

/-- The labels that a production may give to its children. -/
inductive Field where
  | defaultval | name | parameters | returnType | scope | type | varType
  deriving DecidableEq, Repr, Inhabited

namespace Field

/-- The fields in the order of their numbers, which begin at `1`. -/
def all : List Field := [.defaultval, .name, .parameters, .returnType, .scope, .type, .varType]

/-- The label as text. -/
def label : Field → String
  | .defaultval => "defaultval"
  | .name => "name"
  | .parameters => "parameters"
  | .returnType => "returnType"
  | .scope => "scope"
  | .type => "type"
  | .varType => "varType"

end Field

/-- The labels and kinds a production gives to its children, by place. -/
structure Production where
  /-- Places and their fields. -/
  fields : List (Nat × Field) := []
  /-- Places and the kind the child is shown as. -/
  kinds : List (Nat × Symbol) := []
  deriving DecidableEq, Repr, Inhabited

/-- The productions that name children, by number. -/
def productions : Array Production :=
  #[ {},
     { fields := [(3, .name), (5, .parameters), (1, .returnType), (0, .scope)],
       kinds := [(3, .functionName)] },
     { fields := [(3, .name), (1, .returnType), (0, .scope)], kinds := [(3, .functionName)] },
     { fields := [(2, .name), (4, .parameters), (0, .scope)], kinds := [(2, .functionName)] },
     { fields := [(2, .name), (0, .scope)], kinds := [(2, .functionName)] },
     { fields := [(2, .name), (4, .parameters), (0, .returnType)], kinds := [(2, .functionName)] },
     { fields := [(2, .name), (0, .returnType)], kinds := [(2, .functionName)] },
     { fields := [(1, .name), (3, .parameters)], kinds := [(1, .functionName)] },
     { fields := [(1, .name)], kinds := [(1, .functionName)] },
     { fields := [(2, .defaultval), (1, .name), (0, .type)], kinds := [(1, .parameterName)] },
     { fields := [(1, .name), (0, .type)], kinds := [(1, .parameterName)] },
     { kinds := [(1, .variableName)] },
     { kinds := [(1, .variableName)] },
     { fields := [(0, .varType)], kinds := [(1, .variableName)] },
     { fields := [(0, .varType)], kinds := [(1, .variableName)] },
     { fields := [(0, .varType)], kinds := [(1, .variableName)] },
     { kinds := [(0, .variableName)] },
     { kinds := [(1, .operatorsUsedInStatements)] },
     { kinds := [(0, .mathematicalOperators)] },
     { kinds := [(0, .variableName)] },
     { kinds := [(0, .functionName)] },
     { kinds := [(0, .functionName)] },
     { kinds := [(0, .functionName)] },
     { kinds := [(0, .conditionalAtom)] },
     { kinds := [(1, .operatorsUsedInConditionals)] },
     { kinds := [(0, .logicalOperators)] } ]

/-- The kind that a production gives to the child at a place. -/
def shownKind (production place : Nat) : Option Symbol :=
  (productions[production]?).bind fun p => (p.kinds.find? (·.1 == place)).map (·.2)

/-- The field with which a production labels the child at a place. -/
def fieldAt (production place : Nat) : Option Field :=
  (productions[production]?).bind fun p => (p.fields.find? (·.1 == place)).map (·.2)

end Cicode.Grammar
