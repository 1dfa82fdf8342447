import Cicode.Tree.Cursor

/-!
# Trees as nested lists

A syntax tree is written as a nested list of its named and missing nodes, each with its kind and
the label of its field.  The field is something that the parent says of a node, so the node where the
writing begins has none.
-/

namespace Cicode.Tree

namespace Node

/-- Whether a node appears in the written form. -/
def isWritten (node : Node) : Bool := node.isNamed || node.isMissing

/-- The name of a kind between quotation marks. -/
def quotedKind (kind : Symbol) : String :=
  if kind == .lineFeed then "\"\\n\"" else "\"" ++ kind.name ++ "\""

/-- What a node is written as, up to its children. -/
def heading (node : Node) : String :=
  let field := match node.label.field with
    | some field => field.label ++ ": "
    | none => ""
  let kind :=
    if node.isMissing then
      "(MISSING " ++ if node.isNamed then node.kind.name else quotedKind node.kind
    else "(" ++ node.kind.name
  field ++ kind

/-- The node without the field by which its parent refers to it. -/
def unlabelled : Node → Node
  | .node label children => .node { label with field := none } children

/-- The written form of a tree, built in one walk over it. -/
def toSexp (node : Node) : String :=
  Cursor.walk
    (fun out cursor =>
      if cursor.node.isWritten then
        ((if out.isEmpty then out else out ++ " ") ++ cursor.node.heading, true)
      else (out, true))
    (fun out node => if node.isWritten then out ++ ")" else out)
    node.size "" (Cursor.ofNode node.unlabelled)

end Node

end Cicode.Tree
