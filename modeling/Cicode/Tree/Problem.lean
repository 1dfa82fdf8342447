import Cicode.Tree.Cursor
import Cicode.Text.Blank

/-!
# Syntax problems

Every place where the parser skipped text or invented a token is a problem. Problems are listed in
the order of the text; what lies inside a problem is not listed again.
-/

namespace Cicode.Tree

open Text Cicode.Lex

/-- A syntax problem. -/
structure Problem where
  /-- What is wrong. -/
  message : String
  /-- Where the node begins. -/
  start : Extent
  /-- Where it ends. -/
  stop : Extent
  deriving DecidableEq, Repr, Inhabited

/-- How many characters of skipped text are quoted. -/
def quotedLength : Nat := 40

namespace Problem

/-- How skipped text is quoted: its first line, shortened if it is long. -/
def quote (skipped : List Char) : String :=
  let line := trim ((lines skipped).head?.getD [])
  if line.length > quotedLength then String.ofList (line.take quotedLength) ++ "..."
  else String.ofList line

/-- The message for a node that is a problem itself. -/
def messageFor? (source : Source) (node : Node) : Option String :=
  if node.isMissing then
    if node.kind == .lineFeed then some "expected a line break after the function header"
    else if node.isNamed then some ("missing " ++ node.kind.name)
    else some ("missing `" ++ node.kind.name ++ "`")
  else if node.isError then
    some ("unexpected `" ++ quote (source.slice node.label.start node.label.stop) ++ "`")
  else none

/-- The problem that a node is. -/
def ofNode? (source : Source) (node : Node) : Option Problem :=
  (messageFor? source node).map fun message => ⟨message, node.label.start, node.label.stop⟩

/-- The problems in a tree, the outermost only, in the order of the text. -/
def list (source : Source) (node : Node) : List Problem :=
  (Cursor.walk
    (fun problems cursor =>
      if cursor.node.hasError then
        match ofNode? source cursor.node with
        | some problem => (problem :: problems, false)
        | none => (problems, true)
      else (problems, false))
    (fun problems _ => problems) node.size [] (Cursor.ofNode node)).reverse

end Problem

end Cicode.Tree
