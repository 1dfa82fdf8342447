import Cicode.Parse.Run

/-!
# Syntax trees

The syntax tree of a text shows the visible part of the parser's subtree: hidden trees give way to
their children, and productions may show a child under another kind and label it with a field.
Anonymous nodes, which are punctuation and keywords, belong to the tree too.
-/

namespace Cicode.Tree

open Grammar Text Parse

/-- What is known of a node without looking at its children. -/
structure Label where
  /-- The kind it is shown as. -/
  kind : Symbol
  /-- The field by which its parent refers to it. -/
  field : Option Field
  /-- Whether it may stand anywhere. -/
  isExtra : Bool
  /-- Whether it is a token that the text does not hold. -/
  isMissing : Bool
  /-- Whether it is the result of a repair or holds one. -/
  hasError : Bool
  /-- Where it begins. -/
  start : Extent
  /-- Where it ends. -/
  stop : Extent
  deriving DecidableEq, Repr, Inhabited

/-- A node of a syntax tree. -/
inductive Node where
  | node (label : Label) (children : List Node)
  deriving Inhabited

namespace Node

/-- What is known of the node. -/
def label : Node → Label
  | .node label _ => label

/-- The nodes directly below. -/
def children : Node → List Node
  | .node _ children => children

/-- The kind of the node. -/
def kind (node : Node) : Symbol := node.label.kind

/-- Whether the node comes from a rule of the grammar. -/
def isNamed (node : Node) : Bool := node.kind.isNamed

/-- Whether the node stands for text that was skipped. -/
def isError (node : Node) : Bool := node.kind == .error

/-- Whether the node is a token that the text does not hold. -/
def isMissing (node : Node) : Bool := node.label.isMissing

/-- Whether the node is the result of a repair or holds one. -/
def hasError (node : Node) : Bool := node.label.hasError

/-- Whether the node is a comment. -/
def isComment (node : Node) : Bool := node.kind == .comment

/-- The named nodes directly below. -/
def namedChildren (node : Node) : List Node := node.children.filter isNamed

/-- The named nodes directly below, without comments. -/
def significant (node : Node) : List Node := node.namedChildren.filter (!·.isComment)

/-- The first node directly below that is no comment. -/
def firstToken (node : Node) : Option Node := node.children.find? (!·.isComment)

/-- The node directly below that a field refers to. -/
def child? (node : Node) (field : Field) : Option Node :=
  node.children.find? (·.label.field == some field)

mutual

/-- The number of nodes in a tree. -/
def size : Node → Nat
  | .node _ children => sizeAll children + 1

/-- The number of nodes in several trees. -/
def sizeAll : List Node → Nat
  | [] => 0
  | first :: rest => size first + sizeAll rest

end

/-! ## The visible part of a subtree -/

mutual

/-- Put the visible nodes of a subtree in front of others. `position` is where the subtree's
padding begins, `shown` the kind that its production gives it, `field` the label it has or, for a
hidden tree, the label that its first visible ancestors leave to it. -/
def prepend (position : Extent) (shown : Option Symbol) (field : Option Field)
    (others : List Node) : Subtree → List Node
  | .node facts children =>
    let kind := shown.getD facts.symbol
    if shown.isSome || facts.symbol.isVisible then
      let start := position + facts.padding
      let label : Label :=
        { kind, field, isExtra := facts.extra, isMissing := facts.missing,
          hasError := facts.errorCost > 0, start, stop := start + facts.size }
      .node label (prependAll facts.production 0 position none [] children) :: others
    else prependAll facts.production 0 position field others children

/-- Put the visible nodes of the children of a production in front of others. `place` is the
place of the first of them, extras not counted. -/
def prependAll (production place : Nat) (position : Extent) (inherited : Option Field)
    (others : List Node) : List Subtree → List Node
  | [] => others
  | .node facts children :: rest =>
    let place' := if facts.extra then place else place + 1
    let after := position + (facts.padding + facts.size)
    let others := prependAll production place' after inherited others rest
    if facts.extra then prepend position none none others (.node facts children)
    else
      prepend position (shownKind production place) (fieldAt production place <|> inherited) others
        (.node facts children)

end

/-- The syntax tree of a subtree. -/
def ofSubtree (tree : Subtree) : Node :=
  ((prepend 0 (some tree.symbol) none [] tree).head?).getD default

/-- The syntax tree of a text. -/
def parse (chars : List Char) : Node := ofSubtree (Parse.parse chars)

end Node

end Cicode.Tree
